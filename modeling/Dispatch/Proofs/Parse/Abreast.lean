import Dispatch.Proofs.Parse.Step
import Dispatch.Proofs.Parse.Taking
import Dispatch.Proofs.Reader.Abreast
import Dispatch.Proofs.Tree.Standard
import Mathlib.Data.List.Forall2
/-!
# Parses abreast

Two parses that go on below the same node, from readers abreast, go the same way: what stands
before the common end of the two lines, and which contexts the parses are in, makes no
difference to parsers that do not look at it. `parseAt_abreast` says so below nodes from which
child edges lead to standard parsers only and nothing redirects: the parses visit the same
nodes, bind the same values, report the same errors and are both complete or both not, and all
offsets are aligned.
-/
namespace Dispatch
variable {S E M : Type} {u u' v : String}

/-- Ranges whose ends are the same but for the lengths of two beginnings. -/
structure Span.Aligned (u u' : String) (s s' : Span) : Prop where
  start : Dispatch.Aligned u u' s.start s'.start
  stop : Dispatch.Aligned u u' s.stop s'.stop

/-- One node, visited over aligned ranges. -/
def ParsedNode.Aligned (u u' : String) (n n' : ParsedNode) : Prop :=
  n.node = n'.node ∧ n.range.Aligned u u' n'.range

/-- One value, bound to one name over aligned ranges. -/
def ParsedArgument.Aligned (u u' : String) (a a' : String × ParsedArgument) : Prop :=
  a.1 = a'.1 ∧ a.2.value = a'.2.value ∧ a.2.range.Aligned u u' a'.2.range

/-- Contexts that have gone the same way from `base` and `base'` on: the same nodes `below` and
`below'` over aligned ranges, the same values bound, and, if there are such nodes, the same to run.
-/
structure Context.Abreast (u u' : String) (base base' below below' : List ParsedNode)
    (c c' : Context S E M) : Prop where
  source : c.source = c'.source
  nodes : c.nodes = base ++ below
  nodes' : c'.nodes = base' ++ below'
  visited : List.Forall₂ (ParsedNode.Aligned u u') below below'
  arguments : List.Forall₂ (ParsedArgument.Aligned u u') c.arguments c'.arguments
  latest : below ≠ [] → c.executor = c'.executor ∧ Aligned u u' c.range.stop c'.range.stop

/-- Parses that have gone the same way, each in one context. -/
structure Parse.Abreast (u u' v : String) (base base' : List ParsedNode) (p p' : Parse S E M) :
    Prop where
  contexts : ∃ below below' c c', p.chain = .single c ∧ p'.chain = .single c' ∧
    c.Abreast u u' base base' below below' c'
  readers : Dispatch.Abreast u u' v p.reader p'.reader
  errors : List.Forall₂ (fun e e' => e.1 = e'.1 ∧ e.2.Abreast u u' v e'.2) p.errors p'.errors

/-! ## One match -/

namespace Label
variable {r r' : Reader}

/-- What two labels take is abreast: an error each, or one value. -/
inductive TakesAbreast (u u' v : String) :
    Except SyntaxError (Taken r) → Except SyntaxError (Taken r') → Prop
  | error {e e' : SyntaxError} (errors : e.Abreast u u' v e') :
    TakesAbreast u u' v (.error e) (.error e')
  | ok {taken : Taken r} {taken' : Taken r'} (value : taken.value = taken'.value)
    (readers : Abreast u u' v taken.after taken'.after) :
    TakesAbreast u u' v (.ok taken) (.ok taken')

theorem locateAt_of_abreast {e e' : SyntaxError} (h : e.Abreast u u' v e') (s s' : Reader) :
    (locateAt s e).Abreast u u' v (locateAt s' e') := by
  obtain ⟨n, n', hn, hn', -⟩ := h.cursor
  have hlocated : e.isLocated = true := by simp [SyntaxError.isLocated, h.input, hn]
  have hlocated' : e'.isLocated = true := by simp [SyntaxError.isLocated, h.input', hn']
  rw [locateAt, locateAt, if_pos hlocated, if_pos hlocated']
  exact h

/-- A standard label takes the same at readers abreast, whatever the contexts are. -/
theorem take_abreast {label : Label S E M} (standard : label.IsStandard)
    (h : Abreast u u' v r r') (c c' : Context S E M) :
    TakesAbreast u u' v (label.take c r) (label.take c' r') := by
  cases label with
  | literal text =>
    rw [take, take, h.peekWord_eq]
    by_cases hword : r'.peekWord = text
    · rw [if_pos hword, if_pos hword]
      exact .ok rfl (h.move _)
    · rw [if_neg hword, if_neg hword]
      exact .error (h.error _ _ _)
  | argument name parser completer =>
    obtain ⟨p, rfl⟩ := standard
    have hparse := p.parse_abreast h
    rw [take, take]
    generalize hx : p.parse r = outcome at hparse
    generalize hx' : p.parse r' = outcome' at hparse
    cases hparse with
    | error failures moved =>
      cases failures with
      | rejected errors =>
        rw [takeValue_of_rejected hx, takeValue_of_rejected hx']
        exact .error (locateAt_of_abreast errors _ _)
      | fault reason =>
        rw [takeValue_of_fault hx, takeValue_of_fault hx']
        exact .error ((moved.seek h).error _ _ _)
    | @ok value s s' moved =>
      have hseek := moved.seek moved
      have honward : r.cursor ≤ (s.seek s.cursor).cursor ↔
          r'.cursor ≤ (s'.seek s'.cursor).cursor := by
        have haligned := h.aligned'
        have haligned' := hseek.aligned'
        omega
      by_cases honward' : r'.cursor ≤ (s'.seek s'.cursor).cursor ∧
          (s'.seek s'.cursor).isOnBoundary = true
      · have honward'' : r.cursor ≤ (s.seek s.cursor).cursor ∧
            (s.seek s.cursor).isOnBoundary = true :=
          ⟨honward.2 honward'.1, hseek.isOnBoundary_eq ▸ honward'.2⟩
        rw [takeValue_of_ok hx honward'', takeValue_of_ok hx' honward']
        exact .ok rfl hseek
      · have hstray : ¬(r.cursor ≤ (s.seek s.cursor).cursor ∧
            (s.seek s.cursor).isOnBoundary = true) := by
          rw [honward, hseek.isOnBoundary_eq]
          exact honward'
        rw [takeValue_of_stray hx hstray, takeValue_of_stray hx' honward']
        exact .error ((moved.seek h).error _ _ _)

end Label

theorem Taken.isCutOff_eq {r r' : Reader} {taken : Taken r} {taken' : Taken r'}
    (h : Abreast u u' v taken.after taken'.after) : taken.isCutOff = taken'.isCutOff := by
  rw [isCutOff, isCutOff, h.canRead_eq, h.peek_eq]

theorem Abreast.pastSeparator {r r' : Reader} (h : Abreast u u' v r r') :
    Abreast u u' v r.pastSeparator r'.pastSeparator :=
  h.move 1

theorem Taken.range_aligned {r r' : Reader} (h : Abreast u u' v r r') {taken : Taken r}
    {taken' : Taken r'} (after : Abreast u u' v taken.after taken'.after) :
    taken.range.Aligned u u' taken'.range :=
  ⟨h.aligned, after.aligned⟩

/-! ## One visit -/

theorem Context.forall₂_bind {name : String} {a a' : ParsedArgument} (hvalue : a.value = a'.value)
    (hrange : a.range.Aligned u u' a'.range) {arguments arguments' : List (String × ParsedArgument)}
    (h : List.Forall₂ (ParsedArgument.Aligned u u') arguments arguments') :
    List.Forall₂ (ParsedArgument.Aligned u u') (bind name a arguments)
      (bind name a' arguments') := by
  induction h with
  | nil => exact .cons ⟨rfl, hvalue, hrange⟩ .nil
  | @cons x x' rest rest' hx hrest ih =>
    obtain ⟨first, old⟩ := x
    obtain ⟨first', old'⟩ := x'
    obtain ⟨rfl, hold⟩ := hx
    simp only [bind]
    by_cases hname : first = name
    · rw [if_pos hname, if_pos hname]
      exact .cons ⟨rfl, hvalue, hrange⟩ hrest
    · rw [if_neg hname, if_neg hname]
      exact .cons ⟨rfl, hold⟩ ih

namespace Context.Abreast
variable {base base' below below' : List ParsedNode} {c c' : Context S E M} {r r' : Reader}
  {taken : Taken r} {taken' : Taken r'}

/-- Visiting one child from readers abreast keeps contexts abreast. -/
theorem visit (h : c.Abreast u u' base base' below below' c') (hr : Dispatch.Abreast u u' v r r')
    (value : taken.value = taken'.value)
    (after : Dispatch.Abreast u u' v taken.after taken'.after) (within : c.range.stop ≤ r.cursor)
    (within' : c'.range.stop ≤ r'.cursor) (child : Offspring S E M) :
    (child.visit c taken).Abreast u u' base base' (below ++ [⟨child.id, taken.range⟩])
      (below' ++ [⟨child.id, taken'.range⟩]) (child.visit c' taken') where
  source := by rw [Offspring.visit_source, Offspring.visit_source, h.source]
  nodes := by rw [Offspring.visit_nodes, h.nodes, List.append_assoc]
  nodes' := by rw [Offspring.visit_nodes, h.nodes', List.append_assoc]
  visited := List.rel_append h.visited (.cons ⟨rfl, Taken.range_aligned hr after⟩ .nil)
  arguments := by
    rw [Offspring.visit_arguments, Offspring.visit_arguments]
    cases child.label with
    | literal text => exact h.arguments
    | argument name parser completer =>
      simp only [Label.bindTo, value]
      cases taken'.value with
      | none => exact h.arguments
      | some value =>
        refine forall₂_bind ?_ ?_ h.arguments
        · rfl
        · exact Taken.range_aligned hr after
  latest := by
    intro _
    refine ⟨rfl, ?_⟩
    have honward := taken.onward
    have honward' := taken'.onward
    have haligned := after.aligned'
    simp only [Offspring.visit_range, Span.encompassing, Taken.range, Aligned]
    omega

end Context.Abreast

/-! ## Choosing among parses -/

namespace Parse

variable {base base' : List ParsedNode} {p p' first first' : Parse S E M}
  {rest rest' : List (Parse S E M)}

theorem Abreast.isComplete_eq (h : p.Abreast u u' v base base' p') :
    p.isComplete = p'.isComplete := by
  rw [isComplete, isComplete, h.readers.canRead_eq]

theorem Abreast.rank_eq (h : p.Abreast u u' v base base' p') : p.rank = p'.rank := by
  have herrors : p.errors.isEmpty = p'.errors.isEmpty := by
    rw [Bool.eq_iff_iff, List.isEmpty_iff_length_eq_zero, List.isEmpty_iff_length_eq_zero,
      h.errors.length_eq]
  rw [rank, rank, h.isComplete_eq, herrors]

/-- The best of parses that are abreast one by one are abreast. -/
theorem best_abreast (hrest : List.Forall₂ (Abreast u u' v base base') rest rest') :
    ∀ {first first' : Parse S E M}, first.Abreast u u' v base base' first' →
      (best first rest).Abreast u u' v base base' (best first' rest') := by
  induction hrest with
  | nil => exact fun h => h
  | @cons next next' _ _ hnext _ ih =>
    intro first first' h
    simp only [best, List.foldl_cons] at ih ⊢
    rw [hnext.rank_eq, h.rank_eq]
    by_cases hrank : next'.rank < first'.rank
    · rw [if_pos hrank, if_pos hrank]
      exact ih hnext
    · rw [if_neg hrank, if_neg hrank]
      exact ih h

end Parse

/-- Attempts that fail alike, or lead on to parses that are abreast. -/
inductive Attempt.Abreast (u u' v : String) (base base' : List ParsedNode) :
    Attempt S E M → Attempt S E M → Prop
  | failed {e e' : SyntaxError} (errors : e.Abreast u u' v e') :
    Abreast u u' v base base' (.failed e) (.failed e')
  | possible {p p' : Parse S E M} (parses : p.Abreast u u' v base base' p') :
    Abreast u u' v base base' (.possible p) (.possible p')

/-- Surveys with errors and parses that are abreast one by one. -/
inductive Survey.Abreast (u u' v : String) (base base' : List ParsedNode) :
    Survey S E M → Survey S E M → Prop
  | choice {errors errors' : List (Nat × SyntaxError)} {parses parses' : List (Parse S E M)}
    (failures : List.Forall₂ (fun e e' => e.1 = e'.1 ∧ e.2.Abreast u u' v e'.2) errors errors')
    (ways : List.Forall₂ (Parse.Abreast u u' v base base') parses parses') :
    Abreast u u' v base base' (.choice errors parses) (.choice errors' parses')

theorem Survey.ofAttempts_abreast {base base' : List ParsedNode}
    {attempt attempt' : Offspring S E M → Attempt S E M} {children : List (Offspring S E M)}
    (h : ∀ child ∈ children, (attempt child).Abreast u u' v base base' (attempt' child)) :
    (ofAttempts children fun child _ => attempt child).Abreast u u' v base base'
      (ofAttempts children fun child _ => attempt' child) := by
  induction children with
  | nil => exact .choice .nil .nil
  | cons child rest ih =>
    have hrest := ih fun other hother => h other (List.mem_cons_of_mem child hother)
    have hchild := h child List.mem_cons_self
    simp only [ofAttempts]
    generalize ofAttempts rest (fun child _ => attempt child) = survey at hrest
    generalize ofAttempts rest (fun child _ => attempt' child) = survey' at hrest
    generalize attempt child = tried at hchild
    generalize attempt' child = tried' at hchild
    obtain ⟨failures, ways⟩ := hrest
    cases hchild with
    | failed errors => exact .choice (.cons ⟨rfl, errors⟩ failures) ways
    | possible parses => exact .choice failures (.cons parses ways)

/-! ## Whole parses -/

namespace Dispatcher
variable {d : Dispatcher S E M} {base base' below below' : List ParsedNode} {r r' : Reader}
  {c c' : Context S E M}

/-- A parse that ends in contexts abreast. -/
theorem single_abreast (hc : c.Abreast u u' base base' below below' c')
    (hr : Abreast u u' v r r') {errors errors' : List (Nat × SyntaxError)}
    (failures : List.Forall₂ (fun e e' => e.1 = e'.1 ∧ e.2.Abreast u u' v e'.2) errors errors') :
    (⟨.single c, r, errors⟩ : Parse S E M).Abreast u u' v base base' ⟨.single c', r', errors'⟩ :=
  ⟨⟨below, below', c, c', rfl, rfl, hc⟩, hr, failures⟩

/-- Trying a child from readers abreast comes to the same, if going on behind it does. -/
theorem trial_abreast {child : Offspring S E M} (standard : child.label.IsStandard)
    (plain : child.node.redirect = none) (hr : Abreast u u' v r r')
    (hc : c.Abreast u u' base base' below below' c')
    (within : c.range.stop ≤ r.cursor) (within' : c'.range.stop ≤ r'.cursor)
    (ih : ∀ {after after' : Reader} {below below' : List ParsedNode} {c c' : Context S E M},
      Abreast u u' v after after' → c.Abreast u u' base base' below below' c' →
      c.range.stop ≤ after.cursor → c'.range.stop ≤ after'.cursor →
        (d.parseAt child.id after c).Abreast u u' v base base' (d.parseAt child.id after' c')) :
    (d.trial c r child).Abreast u u' v base base' (d.trial c' r' child) := by
  have htakes := Label.take_abreast standard hr c c'
  generalize htake : child.label.take c r = outcome at htakes
  generalize htake' : child.label.take c' r' = outcome' at htakes
  cases htakes with
  | error errors =>
    rw [trial_of_take_error htake, trial_of_take_error htake']
    exact .failed errors
  | @ok taken taken' value readers =>
    have hcut := Taken.isCutOff_eq readers
    cases hcutOff : taken'.isCutOff with
    | true =>
      rw [hcutOff] at hcut
      rw [trial_of_isCutOff htake hcut, trial_of_isCutOff htake' hcutOff]
      exact .failed (readers.error _ _ _)
    | false =>
      rw [hcutOff] at hcut
      have hvisit := hc.visit hr value readers within within' child
      have hended : (Parse.ended (child.visit c taken) taken.after).Abreast u u' v base base'
          (Parse.ended (child.visit c' taken') taken'.after) :=
        single_abreast hvisit readers .nil
      rw [trial_of_matches ⟨htake, hcut⟩, trial_of_matches ⟨htake', hcutOff⟩, plain,
        readers.canRead_eq, readers.canReadBytes_eq]
      by_cases hmore : taken'.after.canRead = true
      · rw [if_pos hmore, if_pos hmore]
        by_cases hbytes : taken'.after.canReadBytes 2 = true
        · simp only [hbytes, if_true]
          have honward := taken.onward
          have honward' := taken'.onward
          refine .possible (ih readers.pastSeparator hvisit ?_ ?_)
          · simp only [Offspring.visit_range, Span.encompassing, Taken.range, Reader.pastSeparator]
            omega
          · simp only [Offspring.visit_range, Span.encompassing, Taken.range, Reader.pastSeparator]
            omega
        · simp only [hbytes, Bool.false_eq_true, if_false]
          exact .possible hended
      · rw [if_neg hmore, if_neg hmore]
        exact .possible hended

/-- Parses are abreast if what comes of the eligible children is. -/
theorem parseAt_abreast_of_trials {node : Nat} (hr : Abreast u u' v r r')
    (hc : c.Abreast u u' base base' below below' c')
    (htrial : ∀ child ∈ d.tree.eligible node r' c'.source,
      (d.trial c r child).Abreast u u' v base base' (d.trial c' r' child)) :
    (d.parseAt node r c).Abreast u u' v base base' (d.parseAt node r' c') := by
  have heligible : d.tree.eligible node r c.source = d.tree.eligible node r' c'.source := by
    rw [Tree.eligible, Tree.eligible, hr.peekWord_eq, hc.source]
  have hsurvey := Survey.ofAttempts_abreast htrial
  rw [parseAt_eq, parseAt_eq, survey, survey, heligible]
  generalize Survey.ofAttempts (d.tree.eligible node r' c'.source)
    (fun child _ => d.trial c r child) = found at hsurvey
  generalize Survey.ofAttempts (d.tree.eligible node r' c'.source)
    (fun child _ => d.trial c' r' child) = found' at hsurvey
  obtain ⟨failures, ways⟩ := hsurvey
  cases ways with
  | nil => exact single_abreast hc hr failures
  | cons first rest => exact Parse.best_abreast rest first

/-- Parses below one node from readers abreast are abreast. -/
theorem parseAt_abreast {P : Nat → Prop} (standard : d.tree.StandardBelow P) {node : Nat}
    (hnode : P node) (hr : Abreast u u' v r r') (hc : c.Abreast u u' base base' below below' c')
    (within : c.range.stop ≤ r.cursor) (within' : c'.range.stop ≤ r'.cursor) :
    (d.parseAt node r c).Abreast u u' v base base' (d.parseAt node r' c') := by
  -- Without redirects the parses go down the tree.
  induction hrank : d.tree.size - node using Nat.strongRecOn
    generalizing node r r' c c' below below' with
  | ind rank ih =>
    subst hrank
    refine parseAt_abreast_of_trials hr hc fun child hmem => ?_
    obtain ⟨hchild, hlookup, hlabel, -, -⟩ := Tree.mem_eligible_iff.1 hmem
    refine trial_abreast (standard.labels _ _ _ hnode hchild hlookup _ hlabel)
      (standard.plain _ _ _ hnode hchild hlookup) hr hc within within' ?_
    intro after after' below below' c c' hr hc within within'
    have horder := Tree.lt_of_mem_childIds hchild
    exact ih (d.tree.size - child.id) (by omega) (standard.closed _ _ hnode hchild) hr hc within
      within' rfl

end Dispatcher
end Dispatch
