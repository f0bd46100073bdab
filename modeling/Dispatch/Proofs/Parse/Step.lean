import Dispatch.Parse
import Dispatch.Proofs.Parse.Taking
/-!
# What one step of a parse can do

A parse tries the eligible children of a node and either stops there or goes on behind one of them.
`Yields` lists the ways in which it can go, one constructor for each: no child leads on, the line
ends behind a child, it goes on among the children of a child, or a redirect is followed. Every
parse comes about in these ways (`parseAt_yields`), so what holds of all parses is shown by
induction on `Yields`.
-/
namespace Dispatch
variable {S E M : Type}

namespace Tree
variable {t : Tree S E M} {parent id : Nat} {r : Reader} {source : S} {child : Offspring S E M}

/-- The node with a number, if it fits the next word and the principal may use it. -/
def tried? (t : Tree S E M) (r : Reader) (source : S) (id : Nat) : Option (Offspring S E M) := do
  let node ← t.node? id
  let label ← node.label
  if label.fits r.peekWord && node.canUse source then some ⟨id, node, label⟩ else none

theorem eligible_eq (t : Tree S E M) (parent : Nat) (r : Reader) (source : S) :
    t.eligible parent r source = (t.childIds parent).filterMap (t.tried? r source) := rfl

theorem tried?_eq_some_iff :
    t.tried? r source id = some child ↔
      child.id = id ∧ t.node? child.id = some child.node ∧
        child.node.label = some child.label ∧ child.label.fits r.peekWord = true ∧
        child.node.canUse source = true := by
  obtain ⟨id', node, label⟩ := child
  simp only [tried?, Option.bind_eq_bind, Option.bind_eq_some_iff]
  constructor
  · rintro ⟨found, hfound, tag, htag, h⟩
    split at h
    · next hfits =>
      obtain ⟨rfl, rfl, rfl⟩ : id = id' ∧ found = node ∧ tag = label := by simpa using h
      simp only [Bool.and_eq_true] at hfits
      exact ⟨rfl, hfound, htag, hfits⟩
    · simp at h
  · rintro ⟨rfl, hnode, hlabel, hfits, huse⟩
    exact ⟨node, hnode, label, hlabel, by simp [hfits, huse]⟩

/-- Where no other of these nodes is tried, at most this one is. -/
theorem filterMap_tried?_eq {ids : List Nat} {x : Nat} (hnodup : ids.Nodup) (hx : x ∈ ids)
    (others : ∀ c ∈ ids, c ≠ x → t.tried? r source c = none) :
    ids.filterMap (t.tried? r source) = (t.tried? r source x).toList := by
  obtain ⟨before, after, rfl⟩ := List.append_of_mem hx
  rw [List.nodup_append] at hnodup
  obtain ⟨-, hafter, hbefore⟩ := hnodup
  have hleft : ∀ c ∈ before, t.tried? r source c = none := fun c hc =>
    others c (by simp [hc]) (hbefore c hc x (by simp))
  have hright : ∀ c ∈ after, t.tried? r source c = none := fun c hc =>
    others c (by simp [hc]) fun hcx => (List.nodup_cons.1 hafter).1 (hcx ▸ hc)
  rw [List.filterMap_append, List.filterMap_cons, List.filterMap_eq_nil_iff.2 hleft,
    List.filterMap_eq_nil_iff.2 hright]
  cases t.tried? r source x <;> rfl

theorem mem_eligible_iff :
    child ∈ t.eligible parent r source ↔
      child.id ∈ t.childIds parent ∧ t.node? child.id = some child.node ∧
        child.node.label = some child.label ∧ child.label.fits r.peekWord = true ∧
        child.node.canUse source = true := by
  rw [eligible_eq, List.mem_filterMap]
  simp only [tried?_eq_some_iff]
  constructor
  · rintro ⟨_, hc, rfl, h⟩
    exact ⟨hc, h⟩
  · rintro ⟨hc, h⟩
    exact ⟨child.id, hc, rfl, h⟩

/-- A node is tried in one way. -/
theorem eq_of_mem_eligible {child' : Offspring S E M} (h : child ∈ t.eligible parent r source)
    (h' : child' ∈ t.eligible parent r source) (hid : child.id = child'.id) : child = child' := by
  have htried := tried?_eq_some_iff.2 ⟨rfl, (mem_eligible_iff.1 h).2⟩
  have htried' := tried?_eq_some_iff.2 ⟨hid.symm, (mem_eligible_iff.1 h').2⟩
  exact Option.some.inj (htried.symm.trans htried')

end Tree

namespace Offspring

/-- The child takes something from the input at a reader, and what follows that is set apart
by a separator. -/
def Matches (child : Offspring S E M) (c : Context S E M) {r : Reader} (taken : Taken r) : Prop :=
  child.label.take c r = .ok taken ∧ taken.isCutOff = false

/-- The context behind a child that took something. -/
def visit (child : Offspring S E M) (c : Context S E M) {r : Reader} (taken : Taken r) :
    Context S E M :=
  ((child.label.bindTo taken c).withNode child.id taken.range child.node.modifier
    child.node.forks).withExecutor child.node.executor

@[simp] theorem visit_source (child : Offspring S E M) (c : Context S E M) {r : Reader}
    (taken : Taken r) : (child.visit c taken).source = c.source := by
  rw [visit, Label.bindTo_eq]
  rfl

@[simp] theorem visit_input (child : Offspring S E M) (c : Context S E M) {r : Reader}
    (taken : Taken r) : (child.visit c taken).input = c.input := by
  rw [visit, Label.bindTo_eq]
  rfl

@[simp] theorem visit_root (child : Offspring S E M) (c : Context S E M) {r : Reader}
    (taken : Taken r) : (child.visit c taken).root = c.root := by
  rw [visit, Label.bindTo_eq]
  rfl

@[simp] theorem visit_redirectDepth (child : Offspring S E M) (c : Context S E M) {r : Reader}
    (taken : Taken r) : (child.visit c taken).redirectDepth = c.redirectDepth := by
  rw [visit, Label.bindTo_eq]
  rfl

@[simp] theorem visit_nodes (child : Offspring S E M) (c : Context S E M) {r : Reader}
    (taken : Taken r) :
    (child.visit c taken).nodes = c.nodes ++ [⟨child.id, taken.range⟩] := by
  rw [visit, Label.bindTo_eq]
  rfl

@[simp] theorem visit_range (child : Offspring S E M) (c : Context S E M) {r : Reader}
    (taken : Taken r) : (child.visit c taken).range = c.range.encompassing taken.range := by
  rw [visit, Label.bindTo_eq]
  rfl

@[simp] theorem visit_executor (child : Offspring S E M) (c : Context S E M) {r : Reader}
    (taken : Taken r) : (child.visit c taken).executor = child.node.executor := rfl

@[simp] theorem visit_modifier (child : Offspring S E M) (c : Context S E M) {r : Reader}
    (taken : Taken r) : (child.visit c taken).modifier = child.node.modifier := rfl

@[simp] theorem visit_forks (child : Offspring S E M) (c : Context S E M) {r : Reader}
    (taken : Taken r) : (child.visit c taken).forks = child.node.forks := rfl

theorem visit_arguments (child : Offspring S E M) (c : Context S E M) {r : Reader}
    (taken : Taken r) :
    (child.visit c taken).arguments = (child.label.bindTo taken c).arguments := rfl

/-- Where parsers keep the text, a match leaves it the same. -/
theorem Matches.input_eq {t : Tree S E M} {node : Nat} {source : S} {child : Offspring S E M}
    {c : Context S E M} {r : Reader} {taken : Taken r} (h : child.Matches c taken)
    (keeps : t.KeepsText) (mem : child ∈ t.eligible node r source) :
    taken.after.input = r.input := by
  obtain ⟨-, hlookup, hlabel, -⟩ := Tree.mem_eligible_iff.1 mem
  exact (keeps child.id _ _ hlookup hlabel).input_eq h.1

/-- Behind a match, whatever is left of the input starts with a separator. -/
theorem Matches.peek {child : Offspring S E M} {c : Context S E M} {r : Reader}
    {taken : Taken r} (h : child.Matches c taken) (more : taken.after.canRead = true) :
    taken.after.peek = some separator := by
  simpa [Taken.isCutOff, more] using h.2

end Offspring

/-- The context in which a parse goes on at the target of a redirect. -/
def Context.entrance (visited : Context S E M) (target : Nat) (after : Reader) : Context S E M :=
  { Context.start visited.source after.input target after.cursor with
    redirectDepth := visited.redirectDepth + 1 }

@[simp] theorem Parse.isComplete_ended (c : Context S E M) (after : Reader) :
    (ended c after).isComplete = !after.canRead := rfl

namespace Dispatcher

/-- What comes of trying a child, going on behind it as a parse does. -/
def trial (d : Dispatcher S E M) (c : Context S E M) (r : Reader) (child : Offspring S E M) :
    Attempt S E M :=
  d.attempt c r child fun next after visited _within => d.parseAt next after visited

/-- What comes of trying the children of a node. -/
def survey (d : Dispatcher S E M) (node : Nat) (r : Reader) (c : Context S E M) : Survey S E M :=
  .ofAttempts (d.tree.eligible node r c.source) fun child _ => d.trial c r child

theorem parseAt_eq (d : Dispatcher S E M) (node : Nat) (r : Reader) (c : Context S E M) :
    d.parseAt node r c = (d.survey node r c).conclude c r := by
  rw [parseAt]
  rfl

/-- A child that matches is the end of the line, or another parse goes on behind it. -/
theorem attempt_of_matches {d : Dispatcher S E M} {c : Context S E M} {r : Reader}
    (parse : Nat → Reader → Context S E M → Parse S E M) {child : Offspring S E M}
    {taken : Taken r} (h : child.Matches c taken) :
    d.attempt c r child (fun next after visited _within => parse next after visited) =
      if taken.after.canRead then
        match child.node.redirect with
        | some target =>
          if d.config.maxRedirectDepth < c.redirectDepth + 1 then
            .failed (taken.after.pastSeparator.error .redirectLimit
              [("limit", Decimal.natText d.config.maxRedirectDepth)])
          else
            let inner := parse target taken.after.pastSeparator
              ((child.visit c taken).entrance target taken.after.pastSeparator)
            .settled { inner with chain := .enter (child.visit c taken) inner.chain }
        | none =>
          if taken.after.canReadBytes 2 then
            .possible (parse child.id taken.after.pastSeparator (child.visit c taken))
          else .possible (.ended (child.visit c taken) taken.after)
      else .possible (.ended (child.visit c taken) taken.after) := by
  have depth := child.visit_redirectDepth c taken
  rw [attempt, h.1]
  simp only [h.2, Bool.false_eq_true, if_false]
  by_cases more : taken.after.canRead = true
  · simp only [more, if_true]
    cases child.node.redirect with
    | none => rfl
    | some target =>
      simp only [followRedirect, ← depth]
      rfl
  · simp only [more]
    rfl

theorem attempt_of_take_error {d : Dispatcher S E M} {c : Context S E M} {r : Reader}
    {child : Offspring S E M} (descend : d.Descent (d.room child.id c.redirectDepth))
    {error : SyntaxError} (h : child.label.take c r = .error error) :
    d.attempt c r child descend = .failed error := by
  rw [attempt, h]

theorem attempt_of_isCutOff {d : Dispatcher S E M} {c : Context S E M} {r : Reader}
    {child : Offspring S E M} (descend : d.Descent (d.room child.id c.redirectDepth))
    {taken : Taken r} (h : child.label.take c r = .ok taken) (cut : taken.isCutOff = true) :
    d.attempt c r child descend = .failed (taken.after.error .expectedSeparator []) := by
  rw [attempt, h]
  exact if_pos cut

theorem trial_of_matches {d : Dispatcher S E M} {c : Context S E M} {r : Reader}
    {child : Offspring S E M} {taken : Taken r} (h : child.Matches c taken) :
    d.trial c r child =
      if taken.after.canRead then
        match child.node.redirect with
        | some target =>
          if d.config.maxRedirectDepth < c.redirectDepth + 1 then
            .failed (taken.after.pastSeparator.error .redirectLimit
              [("limit", Decimal.natText d.config.maxRedirectDepth)])
          else
            let inner := d.parseAt target taken.after.pastSeparator
              ((child.visit c taken).entrance target taken.after.pastSeparator)
            .settled { inner with chain := .enter (child.visit c taken) inner.chain }
        | none =>
          if taken.after.canReadBytes 2 then
            .possible (d.parseAt child.id taken.after.pastSeparator (child.visit c taken))
          else .possible (.ended (child.visit c taken) taken.after)
      else .possible (.ended (child.visit c taken) taken.after) :=
  attempt_of_matches d.parseAt h

/-- A line that ends behind a child leaves nothing to go on with. -/
theorem trial_of_atEnd {d : Dispatcher S E M} {c : Context S E M} {r : Reader}
    {child : Offspring S E M} {taken : Taken r} (h : child.Matches c taken)
    (atEnd : taken.after.canRead = false) :
    d.trial c r child = .possible (.ended (child.visit c taken) taken.after) := by
  rw [trial_of_matches h, atEnd]
  rfl

theorem trial_of_take_error {d : Dispatcher S E M} {c : Context S E M} {r : Reader}
    {child : Offspring S E M} {error : SyntaxError} (h : child.label.take c r = .error error) :
    d.trial c r child = .failed error :=
  attempt_of_take_error _ h

theorem trial_of_isCutOff {d : Dispatcher S E M} {c : Context S E M} {r : Reader}
    {child : Offspring S E M} {taken : Taken r} (h : child.label.take c r = .ok taken)
    (cut : taken.isCutOff = true) :
    d.trial c r child = .failed (taken.after.error .expectedSeparator []) :=
  attempt_of_isCutOff _ h cut

/-- A child that does not match is passed over. -/
theorem trial_of_not_matches {d : Dispatcher S E M} {c : Context S E M} {r : Reader}
    {child : Offspring S E M} (h : ∀ taken : Taken r, ¬child.Matches c taken) :
    ∃ error, d.trial c r child = .failed error := by
  cases htake : child.label.take c r with
  | error error => exact ⟨error, trial_of_take_error htake⟩
  | ok taken =>
    cases hcut : taken.isCutOff with
    | true => exact ⟨_, trial_of_isCutOff htake hcut⟩
    | false => exact absurd ⟨htake, hcut⟩ (h taken)

/-- A way to go on comes from a child that matches. -/
theorem trial_eq_possible {d : Dispatcher S E M} {c : Context S E M} {r : Reader}
    {child : Offspring S E M} {p : Parse S E M} (h : d.trial c r child = .possible p) :
    ∃ taken : Taken r, child.Matches c taken ∧
      (((taken.after.canRead = true →
          child.node.redirect = none ∧ taken.after.canReadBytes 2 = false) ∧
        p = .ended (child.visit c taken) taken.after) ∨
      (child.node.redirect = none ∧ taken.after.canReadBytes 2 = true ∧
        p = d.parseAt child.id taken.after.pastSeparator (child.visit c taken))) := by
  by_cases hm : ∃ taken : Taken r, child.Matches c taken
  · obtain ⟨taken, hm⟩ := hm
    refine ⟨taken, hm, ?_⟩
    rw [trial_of_matches hm] at h
    by_cases more : taken.after.canRead = true
    · simp only [more, if_true] at h
      cases hredirect : child.node.redirect with
      | some target =>
        simp only [hredirect] at h
        split at h <;> simp at h
      | none =>
        simp only [hredirect] at h
        split at h
        · next hbytes => exact .inr ⟨rfl, hbytes, by simpa using h.symm⟩
        · next hbytes => exact .inl ⟨fun _ => ⟨rfl, by simpa using hbytes⟩, by simpa using h.symm⟩
    · simp only [more, Bool.false_eq_true, if_false] at h
      exact .inl ⟨fun more' => absurd more' more, by simpa using h.symm⟩
  · have hnone : ∀ taken : Taken r, ¬child.Matches c taken := fun taken hm' => hm ⟨taken, hm'⟩
    obtain ⟨error, herror⟩ := d.trial_of_not_matches hnone
    simp [herror] at h

/-- A child settles a parse only by a redirect, within the limit. -/
theorem trial_eq_settled {d : Dispatcher S E M} {c : Context S E M} {r : Reader}
    {child : Offspring S E M} {p : Parse S E M} (h : d.trial c r child = .settled p) :
    ∃ (taken : Taken r) (target : Nat), child.Matches c taken ∧ taken.after.canRead = true ∧
      child.node.redirect = some target ∧ c.redirectDepth + 1 ≤ d.config.maxRedirectDepth ∧
      ∃ inner, inner = d.parseAt target taken.after.pastSeparator
          ((child.visit c taken).entrance target taken.after.pastSeparator) ∧
        p = { inner with chain := .enter (child.visit c taken) inner.chain } := by
  by_cases hm : ∃ taken : Taken r, child.Matches c taken
  · obtain ⟨taken, hm⟩ := hm
    rw [trial_of_matches hm] at h
    by_cases more : taken.after.canRead = true
    · simp only [more, if_true] at h
      cases hredirect : child.node.redirect with
      | some target =>
        simp only [hredirect] at h
        split at h
        · simp at h
        · next hdepth =>
          exact ⟨taken, target, hm, more, rfl, by omega, _, rfl, by simpa using h.symm⟩
      | none =>
        simp only [hredirect] at h
        split at h <;> simp at h
    · simp [more] at h
  · have hnone : ∀ taken : Taken r, ¬child.Matches c taken := fun taken hm' => hm ⟨taken, hm'⟩
    obtain ⟨error, herror⟩ := d.trial_of_not_matches hnone
    simp [herror] at h

end Dispatcher

namespace Attempt

/-- The parse of an attempt that is one way to go on. -/
def possible? : Attempt S E M → Option (Parse S E M)
  | possible p => some p
  | _ => none

/-- The error of an attempt that failed. -/
def error? : Attempt S E M → Option SyntaxError
  | failed error => some error
  | _ => none

/-- The parse of an attempt that settles it. -/
def settled? : Attempt S E M → Option (Parse S E M)
  | settled p => some p
  | _ => none

theorem possible?_eq_some_iff {a : Attempt S E M} {p : Parse S E M} :
    a.possible? = some p ↔ a = possible p := by
  cases a <;> simp [possible?]

theorem settled?_eq_some_iff {a : Attempt S E M} {p : Parse S E M} :
    a.settled? = some p ↔ a = settled p := by
  cases a <;> simp [settled?]

end Attempt

namespace Survey

/-- A survey is settled by the first child that settles it. -/
theorem ofAttempts_eq_settled_iff {attempt : Offspring S E M → Attempt S E M}
    {children : List (Offspring S E M)} {p : Parse S E M} :
    ofAttempts children (fun child _ => attempt child) = .settled p ↔
      children.findSome? (fun child => (attempt child).settled?) = some p := by
  induction children with
  | nil => simp [ofAttempts]
  | cons child rest ih =>
    rw [List.findSome?_cons, ofAttempts]
    cases hchild : attempt child with
    | settled p' => simp [Attempt.settled?]
    | failed _ | possible _ =>
      change _ ↔ rest.findSome? (fun child => (attempt child).settled?) = some p
      rw [← ih]
      cases ofAttempts rest fun child _ => attempt child <;> simp

/-- A survey is settled by one of the children. -/
theorem exists_of_ofAttempts_eq_settled {attempt : Offspring S E M → Attempt S E M}
    {children : List (Offspring S E M)} {p : Parse S E M}
    (h : ofAttempts children (fun child _ => attempt child) = .settled p) :
    ∃ child ∈ children, attempt child = .settled p := by
  obtain ⟨child, hmem, hchild⟩ :=
    List.exists_of_findSome?_eq_some (ofAttempts_eq_settled_iff.1 h)
  exact ⟨child, hmem, Attempt.settled?_eq_some_iff.1 hchild⟩

/-- A survey that no child settles lists the errors and the ways to go on in the order of the
children. -/
theorem ofAttempts_eq_choice {attempt : Offspring S E M → Attempt S E M}
    {children : List (Offspring S E M)} {errors : List (Nat × SyntaxError)}
    {parses : List (Parse S E M)}
    (h : ofAttempts children (fun child _ => attempt child) = .choice errors parses) :
    errors = children.filterMap (fun child => (attempt child).error?.map (child.id, ·)) ∧
      parses = children.filterMap (fun child => (attempt child).possible?) ∧
      ∀ child ∈ children, ∀ p, attempt child ≠ .settled p := by
  induction children generalizing errors parses with
  | nil =>
    obtain ⟨rfl, rfl⟩ : [] = errors ∧ [] = parses := by simpa [ofAttempts] using h
    simp
  | cons child rest ih =>
    simp only [ofAttempts] at h
    split at h
    · simp at h
    all_goals
      next hchild =>
      split at h
      · next errors' parses' hrest =>
        obtain ⟨rfl, rfl⟩ := by simpa using h
        obtain ⟨herrors, hparses, hsettled⟩ := ih hrest
        refine ⟨?_, ?_, ?_⟩
        · simp [hchild, Attempt.error?, herrors]
        · simp [hchild, Attempt.possible?, hparses]
        · simpa [hchild] using hsettled
      · simp at h

end Survey

/-- The best of several parses is one of them. -/
theorem Parse.best_mem (first : Parse S E M) (rest : List (Parse S E M)) :
    Parse.best first rest ∈ first :: rest := by
  simp only [Parse.best]
  induction rest generalizing first with
  | nil => simp
  | cons next rest ih =>
    rw [List.foldl_cons]
    split
    · exact List.mem_cons_of_mem first (ih next)
    · rcases List.mem_cons.1 (ih first) with h | h
      · simp [h]
      · simp [h]

/-- What is done to all parses alike leaves the choice among them if it leaves their ranks. -/
theorem Parse.best_map {change : Parse S E M → Parse S E M}
    (h : ∀ p, (change p).rank = p.rank) (first : Parse S E M) (rest : List (Parse S E M)) :
    best (change first) (rest.map change) = change (best first rest) := by
  simp only [best]
  induction rest generalizing first with
  | nil => rfl
  | cons next rest ih =>
    rw [List.map_cons, List.foldl_cons, List.foldl_cons, h, h]
    split
    · exact ih next
    · exact ih first

namespace Dispatcher

/-- A parse is stuck at a node with the errors of all children tried there, or it is what came
of one of them. -/
theorem parseAt_cases (d : Dispatcher S E M) (node : Nat) (r : Reader) (c : Context S E M) :
    (∃ errors, d.survey node r c = .choice errors [] ∧
      d.parseAt node r c = ⟨.single c, r, errors⟩) ∨
    ∃ child ∈ d.tree.eligible node r c.source,
      d.trial c r child = .possible (d.parseAt node r c) ∨
        d.trial c r child = .settled (d.parseAt node r c) := by
  rw [parseAt_eq]
  cases h : d.survey node r c with
  | settled p =>
    obtain ⟨child, hmem, hchild⟩ := Survey.exists_of_ofAttempts_eq_settled h
    exact .inr ⟨child, hmem, .inr hchild⟩
  | choice errors parses =>
    cases parses with
    | nil => exact .inl ⟨errors, rfl, rfl⟩
    | cons first rest =>
      obtain ⟨-, hparses, -⟩ := Survey.ofAttempts_eq_choice h
      have hbest := Parse.best_mem first rest
      rw [hparses, List.mem_filterMap] at hbest
      obtain ⟨child, hmem, hchild⟩ := hbest
      exact .inr ⟨child, hmem, .inl (Attempt.possible?_eq_some_iff.1 hchild)⟩

/-- There is less room at a child than at its parent. -/
theorem room_visit {d : Dispatcher S E M} {node : Nat} {r : Reader} {c : Context S E M}
    {child : Offspring S E M} (mem : child ∈ d.tree.eligible node r c.source) (taken : Taken r) :
    d.room child.id (child.visit c taken).redirectDepth < d.room node c.redirectDepth := by
  rw [child.visit_redirectDepth]
  exact room_child (Tree.mem_childIds_of_mem_eligible mem) _

/-- There is less room behind a redirect than before it. -/
theorem room_entrance {d : Dispatcher S E M} {node target : Nat} {r : Reader} {c : Context S E M}
    {child : Offspring S E M} (limit : c.redirectDepth + 1 ≤ d.config.maxRedirectDepth)
    (taken : Taken r) :
    d.room target ((child.visit c taken).entrance target taken.after.pastSeparator).redirectDepth <
      d.room node c.redirectDepth := by
  rw [Context.entrance, child.visit_redirectDepth]
  exact room_redirect limit node target

/-- The parses that trying the children of a node can end with. -/
inductive Yields (d : Dispatcher S E M) :
    Nat → Reader → Context S E M → Parse S E M → Prop
  /-- No child leads on. -/
  | stuck {node : Nat} {r : Reader} {c : Context S E M} {errors : List (Nat × SyntaxError)}
    (survey : d.survey node r c = .choice errors []) :
    d.Yields node r c ⟨.single c, r, errors⟩
  /-- The line ends behind a child, but for a last separator. -/
  | ended {node : Nat} {r : Reader} {c : Context S E M} {child : Offspring S E M}
    {taken : Taken r} (mem : child ∈ d.tree.eligible node r c.source)
    (matched : child.Matches c taken)
    (last : taken.after.canRead = true →
      child.node.redirect = none ∧ taken.after.canReadBytes 2 = false) :
    d.Yields node r c (.ended (child.visit c taken) taken.after)
  /-- The parse goes on among the children of a child. -/
  | descended {node : Nat} {r : Reader} {c : Context S E M} {child : Offspring S E M}
    {taken : Taken r} {p : Parse S E M} (mem : child ∈ d.tree.eligible node r c.source)
    (matched : child.Matches c taken) (plain : child.node.redirect = none)
    (more : taken.after.canReadBytes 2 = true)
    (below : d.Yields child.id taken.after.pastSeparator (child.visit c taken) p) :
    d.Yields node r c p
  /-- The parse goes on at the target of a child's redirect. -/
  | redirected {node : Nat} {r : Reader} {c : Context S E M} {child : Offspring S E M}
    {taken : Taken r} {target : Nat} {p : Parse S E M}
    (mem : child ∈ d.tree.eligible node r c.source) (matched : child.Matches c taken)
    (redirect : child.node.redirect = some target) (more : taken.after.canRead = true)
    (limit : c.redirectDepth + 1 ≤ d.config.maxRedirectDepth)
    (below : d.Yields target taken.after.pastSeparator
      ((child.visit c taken).entrance target taken.after.pastSeparator) p) :
    d.Yields node r c { p with chain := .enter (child.visit c taken) p.chain }

theorem parseAt_yields (d : Dispatcher S E M) (node : Nat) (r : Reader) (c : Context S E M) :
    d.Yields node r c (d.parseAt node r c) := by
  -- Behind a match there is less room, in the tree or for redirects.
  induction hroom : d.room node c.redirectDepth using Nat.strongRecOn generalizing node r c with
  | ind room ih =>
    subst hroom
    obtain ⟨errors, hsurvey, hp⟩ | ⟨child, hmem, htrial | htrial⟩ := d.parseAt_cases node r c
    · rw [hp]
      exact .stuck hsurvey
    · obtain ⟨taken, hm, ⟨hlast, hp⟩ | ⟨hplain, hmore, hp⟩⟩ := trial_eq_possible htrial
      · rw [hp]
        exact .ended hmem hm hlast
      · rw [hp]
        exact .descended hmem hm hplain hmore (ih _ (room_visit hmem taken) _ _ _ rfl)
    · obtain ⟨taken, target, hm, hmore, hredirect, hlimit, inner, hinner, hp⟩ :=
        trial_eq_settled htrial
      rw [hp]
      refine .redirected hmem hm hredirect hmore hlimit ?_
      rw [hinner]
      exact ih _ (room_entrance hlimit taken) _ _ _ rfl

/-- A parse has stopped where it began, or it has visited nodes beyond those of its
context. -/
theorem Yields.stopped_or_visited {d : Dispatcher S E M} {node : Nat} {r : Reader}
    {c : Context S E M} {p : Parse S E M} (h : d.Yields node r c p) :
    (p.chain = .single c ∧ p.reader = r) ∨
      ∃ first rest, p.chain.outer.nodes = c.nodes ++ first :: rest := by
  induction h with
  | stuck _ => exact .inl ⟨rfl, rfl⟩
  | @ended _ _ _ child taken _ _ _ =>
    exact .inr ⟨⟨child.id, taken.range⟩, [], child.visit_nodes _ taken⟩
  | @descended _ _ c child taken p _ _ _ _ _ ih =>
    have hvisit := child.visit_nodes c taken
    obtain ⟨hchain, -⟩ | ⟨first, rest, hnodes⟩ := ih
    · refine .inr ⟨⟨child.id, taken.range⟩, [], ?_⟩
      rw [hchain, ← hvisit]
      rfl
    · refine .inr ⟨⟨child.id, taken.range⟩, first :: rest, ?_⟩
      rw [hnodes, hvisit, List.append_assoc]
      rfl
  | @redirected _ _ _ child taken _ _ _ _ _ _ _ _ _ =>
    exact .inr ⟨⟨child.id, taken.range⟩, [], child.visit_nodes _ taken⟩

/-- Neither the cursor nor what the first context covers falls back. -/
theorem Yields.onward {d : Dispatcher S E M} {node : Nat} {r : Reader} {c : Context S E M}
    {p : Parse S E M} (h : d.Yields node r c p) :
    r.cursor ≤ p.reader.cursor ∧ c.range.stop ≤ p.chain.outer.range.stop := by
  have hvisit : ∀ {r : Reader} {c : Context S E M} (child : Offspring S E M) (taken : Taken r),
      c.range.stop ≤ (child.visit c taken).range.stop := by
    intro r c child taken
    rw [child.visit_range]
    exact Nat.le_max_left ..
  induction h with
  | stuck _ => exact ⟨Nat.le_refl _, Nat.le_refl _⟩
  | @ended _ _ _ child taken _ _ _ => exact ⟨taken.onward, hvisit child taken⟩
  | @descended _ _ _ child taken _ _ _ _ _ _ ih =>
    obtain ⟨hcursor, hrange⟩ := ih
    refine ⟨?_, Nat.le_trans (hvisit child taken) hrange⟩
    exact Nat.le_trans (Nat.le_succ_of_le taken.onward) hcursor
  | @redirected _ _ _ child taken _ _ _ _ _ _ _ _ ih =>
    refine ⟨?_, hvisit child taken⟩
    exact Nat.le_trans (Nat.le_succ_of_le taken.onward) ih.1

/-- Where parsers keep the text, a parse ends in the text that it started on. -/
theorem Yields.input_eq {d : Dispatcher S E M} {node : Nat} {r : Reader} {c : Context S E M}
    {p : Parse S E M} (h : d.Yields node r c p) (keeps : d.tree.KeepsText) :
    p.reader.input = r.input := by
  induction h with
  | stuck _ => rfl
  | ended mem matched _ => exact matched.input_eq keeps mem
  | descended mem matched _ _ _ ih => exact ih.trans (matched.input_eq keeps mem)
  | redirected mem matched _ _ _ _ ih => exact ih.trans (matched.input_eq keeps mem)

/-- The first context of a parse stays one of the text that it started with. -/
theorem Yields.outer_input_eq {d : Dispatcher S E M} {node : Nat} {r : Reader} {c : Context S E M}
    {p : Parse S E M} (h : d.Yields node r c p) : p.chain.outer.input = c.input := by
  induction h with
  | stuck _ => rfl
  | @ended _ _ c child taken _ _ _ => exact child.visit_input c taken
  | @descended _ _ c child taken _ _ _ _ _ _ ih => exact ih.trans (child.visit_input c taken)
  | @redirected _ _ c child taken _ _ _ _ _ _ _ _ _ => exact child.visit_input c taken

/-- A child that matches and does not redirect is one way to go on, which keeps to what it
visited.
-/
theorem trial_of_plain {d : Dispatcher S E M} {c : Context S E M} {r : Reader}
    {child : Offspring S E M} {taken : Taken r} (h : child.Matches c taken)
    (plain : child.node.redirect = none) :
    ∃ p, d.trial c r child = .possible p ∧
      (∃ rest, p.chain.outer.nodes = (child.visit c taken).nodes ++ rest) ∧
      (child.visit c taken).range.stop ≤ p.chain.outer.range.stop := by
  have hended : ∃ rest, (Parse.ended (child.visit c taken) taken.after).chain.outer.nodes =
      (child.visit c taken).nodes ++ rest := ⟨[], (List.append_nil _).symm⟩
  rw [trial_of_matches h]
  simp only [plain]
  split
  · split
    · have hyields := d.parseAt_yields child.id taken.after.pastSeparator (child.visit c taken)
      refine ⟨_, rfl, ?_, hyields.onward.2⟩
      obtain ⟨hchain, -⟩ | ⟨first, rest, hnodes⟩ := hyields.stopped_or_visited
      · rw [hchain]
        exact hended
      · exact ⟨first :: rest, hnodes⟩
    · exact ⟨_, rfl, hended, Nat.le_refl _⟩
  · exact ⟨_, rfl, hended, Nat.le_refl _⟩

end Dispatcher
end Dispatch
