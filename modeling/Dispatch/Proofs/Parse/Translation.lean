import Dispatch.Proofs.Parse.Step
import Dispatch.Proofs.Parse.Taking
import Dispatch.Proofs.Reader.Alone
import Dispatch.Proofs.Reader.Translation
import Dispatch.Proofs.Tree.Change
import Dispatch.Proofs.Tree.Standard
/-!
# Parsing behind another text

A parse may start anywhere in a line, and what is in front of there makes no difference to it if
arguments are read by the parsers of the library. Put behind a text `u` it visits the same nodes,
binds the same values and reports the same errors. The input in its contexts, readers and errors has
`u` in front, and all of their offsets, on every level, are greater by the bytes of `u`
(`parseAt_shift`). One message does tell an offset, that of a parser that left the cursor where it
must not stand; the parsers of the library never do.
-/
namespace Dispatch
variable {S E M : Type} (u : String)

/-- The range moved by some bytes. -/
def Span.shift (n : Nat) (a : Span) : Span :=
  ⟨n + a.start, n + a.stop, Nat.add_le_add_left a.ordered n⟩

/-- The node visited in the input with `u` in front. -/
def ParsedNode.shift (v : ParsedNode) : ParsedNode :=
  { v with range := v.range.shift (Text.size u) }

/-- The argument bound in the input with `u` in front. -/
def ParsedArgument.shift (a : ParsedArgument) : ParsedArgument :=
  { a with range := a.range.shift (Text.size u) }

/-- The context of the input with `u` in front. -/
def Context.shift (c : Context S E M) : Context S E M :=
  { c with
    input := u ++ c.input
    arguments := c.arguments.map fun (name, a) => (name, a.shift u)
    nodes := c.nodes.map (ParsedNode.shift u)
    range := c.range.shift (Text.size u) }

/-- The chain of the input with `u` in front. -/
def Chain.shift (chain : Chain S E M) : Chain S E M :=
  ⟨chain.outer.shift u, chain.inner.map (Context.shift u)⟩

/-- The parse of the input with `u` in front. -/
def Parse.shift (p : Parse S E M) : Parse S E M where
  chain := p.chain.shift u
  reader := p.reader.shift u
  errors := p.errors.map fun (id, e) => (id, e.shift u)

/-- What was taken from the input with `u` in front. -/
def Taken.shift {r : Reader} (taken : Taken r) : Taken (r.shift u) where
  value := taken.value
  after := taken.after.shift u
  onward := Nat.add_le_add_left taken.onward _

/-- What came of trying a child in the input with `u` in front. -/
def Attempt.shift : Attempt S E M → Attempt S E M
  | failed e => failed (e.shift u)
  | possible p => possible (p.shift u)
  | settled p => settled (p.shift u)

/-- What came of trying several children there. -/
def Survey.shift : Survey S E M → Survey S E M
  | choice errors parses =>
    choice (errors.map fun (id, e) => (id, e.shift u)) (parses.map (Parse.shift u))
  | settled p => settled (p.shift u)

/-! ## One match -/

namespace Taken
variable {r : Reader}

@[simp] theorem isCutOff_shift (taken : Taken r) : (taken.shift u).isCutOff = taken.isCutOff := by
  simp [isCutOff, shift]

theorem range_shift (taken : Taken r) : (taken.shift u).range = taken.range.shift (Text.size u) :=
  rfl

theorem pastSeparator_shift (taken : Taken r) :
    (taken.shift u).after.pastSeparator = taken.after.pastSeparator.shift u := rfl

end Taken

namespace Label
variable {label : Label S E M}

theorem locateAt_shift (r : Reader) (e : SyntaxError) :
    locateAt (r.shift u) (e.shift u) = (locateAt r e).shift u := by
  rw [locateAt, locateAt, SyntaxError.isLocated_shift]
  split
  · rfl
  · exact SyntaxError.shift_locate u e r.input r.cursor

/-- A standard label takes the same behind another text, or fails with the same error. -/
theorem take_shift (standard : label.IsStandard) (c c' : Context S E M) (r : Reader) :
    (∃ e, label.take c r = .error e ∧ label.take c' (r.shift u) = .error (e.shift u)) ∨
      ∃ taken, label.take c r = .ok taken ∧ label.take c' (r.shift u) = .ok (taken.shift u) := by
  cases label with
  | literal text =>
    rw [take, take, Reader.peekWord_shift, Reader.error_shift]
    split
    · refine .inr ⟨_, rfl, congrArg Except.ok ?_⟩
      simp only [Taken.shift, Reader.shift, Nat.add_assoc]
    · exact .inl ⟨_, rfl, rfl⟩
  | argument name parser completer =>
    obtain ⟨p, rfl⟩ := standard
    rw [take, take]
    have hshift := p.parse_shift u r
    cases hparse : p.parse r with
    | mk outcome moved =>
      rw [hparse] at hshift
      cases outcome with
      | error failure =>
        cases failure with
        | rejected e =>
          have hseek : (moved.shift u).seek (moved.shift u).cursor =
              (moved.seek moved.cursor).shift u := Reader.seek_shift u moved moved.cursor
          rw [takeValue_of_rejected hparse, takeValue_of_rejected hshift, hseek, locateAt_shift]
          exact .inl ⟨_, rfl, rfl⟩
        | fault reason =>
          have hseek : (moved.shift u).seek (r.shift u).cursor = (moved.seek r.cursor).shift u :=
            Reader.seek_shift u moved r.cursor
          rw [takeValue_of_fault hparse, takeValue_of_fault hshift, hseek, Reader.error_shift]
          exact .inl ⟨_, rfl, rfl⟩
      | ok value =>
        -- A parser of the library stops at a place where the cursor may stand.
        obtain ⟨xs, ys, hrest, rfl, -⟩ := p.parse_readsAlone.taken hparse
        have hrest' : (r.shift u).rest? = some (xs ++ ys) := (r.rest?_shift u).trans hrest
        have hparse' : p.parse (r.shift u) = (.ok value, (r.shift u).advance xs) := by
          rw [hshift, Reader.advance_shift]
          rfl
        rw [takeValue_of_advance hparse hrest, takeValue_of_advance hparse' hrest']
        refine .inr ⟨_, rfl, congrArg Except.ok ?_⟩
        simp only [Taken.shift, Reader.advance_shift]

end Label

theorem Span.encompassing_shift (n : Nat) (a b : Span) :
    (a.shift n).encompassing (b.shift n) = (a.encompassing b).shift n := by
  simp only [encompassing, shift, Nat.add_min_add_left, Nat.add_max_add_left]

namespace Context

theorem bind_shift (name : String) (a : ParsedArgument)
    (arguments : List (String × ParsedArgument)) :
    bind name (a.shift u) (arguments.map fun (name, a) => (name, a.shift u)) =
      (bind name a arguments).map fun (name, a) => (name, a.shift u) := by
  induction arguments with
  | nil => rfl
  | cons head rest ih =>
    obtain ⟨other, old⟩ := head
    rw [List.map_cons, bind, bind]
    split
    · rfl
    · rw [ih]
      rfl

theorem entrance_shift (visited : Context S E M) (target : Nat) (after : Reader) :
    (visited.shift u).entrance target (after.shift u) = (visited.entrance target after).shift u :=
  rfl

end Context

namespace Offspring

theorem visit_shift (child : Offspring S E M) (c : Context S E M) {r : Reader} (taken : Taken r) :
    child.visit (c.shift u) (taken.shift u) = (child.visit c taken).shift u := by
  have hbind : child.label.bindTo (taken.shift u) (c.shift u) =
      (child.label.bindTo taken c).shift u := by
    cases hlabel : child.label with
    | literal text => rfl
    | argument name parser completer =>
      cases hvalue : taken.value with
      | none => simp only [Label.bindTo, Taken.shift, hvalue]
      | some value =>
        simp only [Label.bindTo, Taken.shift, hvalue]
        exact congrArg (fun arguments => { c.shift u with arguments })
          (Context.bind_shift u name ⟨taken.range, value⟩ c.arguments)
  rw [visit, visit, hbind, Taken.range_shift]
  simp only [Context.withExecutor, Context.withNode, Context.shift, Span.encompassing_shift,
    List.map_append, List.map_cons, List.map_nil]
  rfl

end Offspring

/-! ## The choice among ways to go on -/

theorem Parse.rank_shift (p : Parse S E M) : (p.shift u).rank = p.rank := by
  simp [rank, isComplete, shift]

namespace Survey

theorem ofAttempts_shift {attempt attempt' : Offspring S E M → Attempt S E M}
    {children : List (Offspring S E M)}
    (h : ∀ child ∈ children, attempt' child = (attempt child).shift u) :
    ofAttempts children (fun child _ => attempt' child) =
      (ofAttempts children fun child _ => attempt child).shift u := by
  induction children with
  | nil => rfl
  | cons child rest ih =>
    rw [ofAttempts, ofAttempts, h child List.mem_cons_self,
      ih fun other hother => h other (List.mem_cons_of_mem child hother)]
    cases attempt child with
    | settled p => rfl
    | failed error => cases ofAttempts rest fun child _ => attempt child <;> rfl
    | possible p => cases ofAttempts rest fun child _ => attempt child <;> rfl

theorem conclude_shift (c : Context S E M) (r : Reader) (survey : Survey S E M) :
    (survey.shift u).conclude (c.shift u) (r.shift u) = (survey.conclude c r).shift u := by
  match survey with
  | settled p => rfl
  | choice errors [] => rfl
  | choice errors (first :: rest) => exact Parse.best_map (Parse.rank_shift u) first rest

end Survey

/-! ## Parsing -/

theorem Tree.eligible_shift (t : Tree S E M) (parent : Nat) (r : Reader) (source : S) :
    t.eligible parent (r.shift u) source = t.eligible parent r source := by
  rw [eligible, eligible, Reader.peekWord_shift]

namespace Dispatcher
variable {d : Dispatcher S E M} {node : Nat} {r : Reader} {c : Context S E M}
  {child : Offspring S E M}

/-- Trying a child comes to the same behind another text if going on behind it does. -/
theorem trial_shift (standard : child.label.IsStandard)
    (mem : child ∈ d.tree.eligible node r c.source)
    (below : ∀ next (after : Reader) (visited : Context S E M),
      d.room next visited.redirectDepth < d.room node c.redirectDepth →
        d.parseAt next (after.shift u) (visited.shift u) =
          (d.parseAt next after visited).shift u) :
    d.trial (c.shift u) (r.shift u) child = (d.trial c r child).shift u := by
  obtain ⟨e, htake, htake'⟩ | ⟨taken, htake, htake'⟩ := Label.take_shift u standard c (c.shift u) r
  · rw [trial_of_take_error htake, trial_of_take_error htake']
    rfl
  · have hcut' := taken.isCutOff_shift u
    cases hcut : taken.isCutOff with
    | true =>
      rw [hcut] at hcut'
      rw [trial_of_isCutOff htake hcut, trial_of_isCutOff htake' hcut']
      exact congrArg Attempt.failed (Reader.error_shift u taken.after _ _)
    | false =>
      rw [hcut] at hcut'
      have hmore : (taken.shift u).after.canRead = taken.after.canRead :=
        Reader.canRead_shift u taken.after
      have hbytes : (taken.shift u).after.canReadBytes 2 = taken.after.canReadBytes 2 :=
        Reader.canReadBytes_shift u taken.after 2
      have hdepth : (c.shift u).redirectDepth = c.redirectDepth := rfl
      rw [trial_of_matches ⟨htake, hcut⟩, trial_of_matches ⟨htake', hcut'⟩, hmore, hbytes, hdepth,
        Offspring.visit_shift, Taken.pastSeparator_shift]
      by_cases more : taken.after.canRead = true
      · rw [if_pos more, if_pos more]
        cases child.node.redirect with
        | some target =>
          dsimp only
          rw [Context.entrance_shift, Reader.error_shift]
          split
          · rfl
          · next hlimit =>
            rw [below target _ _ (room_entrance (Nat.not_lt.1 hlimit) taken)]
            rfl
        | none =>
          dsimp only
          rw [below child.id _ _ (room_visit mem taken)]
          split <;> rfl
      · rw [if_neg more, if_neg more]
        rfl

/-- A parse with the parsers of the library is the same behind another text, wherever it
starts and in whatever context. -/
theorem parseAt_shift (standard : d.tree.HasStandardLabels) (node : Nat) (r : Reader)
    (c : Context S E M) :
    d.parseAt node (r.shift u) (c.shift u) = (d.parseAt node r c).shift u := by
  induction hroom : d.room node c.redirectDepth using Nat.strongRecOn generalizing node r c with
  | ind room ih =>
    subst hroom
    rw [parseAt_eq, parseAt_eq, ← Survey.conclude_shift]
    have hsource : (c.shift u).source = c.source := rfl
    have hsurvey : d.survey node (r.shift u) (c.shift u) = (d.survey node r c).shift u := by
      rw [survey, survey, hsource, Tree.eligible_shift]
      refine Survey.ofAttempts_shift u fun child hchild => ?_
      obtain ⟨-, hlookup, hlabel, -⟩ := Tree.mem_eligible_iff.1 hchild
      exact trial_shift u (standard child.id child.node child.label hlookup hlabel) hchild
        fun next after visited hless => ih _ hless next after visited rfl
    rw [hsurvey]

/-- From any node and at any depth of redirects, with the parsers of the library, a text
parses behind another one as it does alone, but that all offsets are moved. -/
theorem parseAt_append (d : Dispatcher S E M) (standard : d.tree.HasStandardLabels) (node : Nat)
    (source : S) (depth : Nat) (u v : String) :
    d.parseAt node (.startingAt (u ++ v) (Text.size u))
        { Context.start source (u ++ v) node (Text.size u) with redirectDepth := depth } =
      (d.parseAt node (.ofString v)
        { Context.start source v node 0 with redirectDepth := depth }).shift u := by
  have hreader : Reader.startingAt (u ++ v) (Text.size u) = (Reader.ofString v).shift u := by
    rw [Reader.startingAt, Text.size_append, Nat.min_eq_left (Nat.le_add_right _ _)]
    rfl
  rw [hreader]
  exact parseAt_shift u standard node (.ofString v)
    { Context.start source v node 0 with redirectDepth := depth }

/-- `say` with a digit, and `again`, which leads back to the root. -/
def echoing : Dispatcher Unit Nat Unit where
  tree := Tree.empty.afterAll
    [.register ((Sprout.literal "say").child
      (Sprout.argument "n" (StandardParser.integer 0 9).toParser)),
     .register ((Sprout.literal "again").redirectTo Tree.root)]
  config := {}

theorem hasStandardLabels_echoing : echoing.tree.HasStandardLabels := by
  intro id node label hnode hlabel
  obtain _ | _ | _ | _ | id := id
  · obtain rfl := Option.some.inj hnode
    cases hlabel
  · obtain rfl := Option.some.inj hnode
    obtain rfl := Option.some.inj hlabel
    trivial
  · obtain rfl := Option.some.inj hnode
    obtain rfl := Option.some.inj hlabel
    exact ⟨_, rfl⟩
  · obtain rfl := Option.some.inj hnode
    obtain rfl := Option.some.inj hlabel
    trivial
  · cases hnode

/-- Three bytes farther on, `say` is visited on the second level and the number behind it is
too great. -/
theorem parseAt_append_echoing : echoing.tree.HasStandardLabels ∧
    ∃ p, p = echoing.parseAt Tree.root (.startingAt ("é " ++ "again say 12") 3)
        (.start () ("é " ++ "again say 12") Tree.root 3) ∧
      p = (echoing.parse "again say 12" ()).shift "é " ∧
      (p.chain.levels.map fun level => level.nodes) =
        [[⟨3, ⟨3, 8, by omega⟩⟩], [⟨1, ⟨9, 12, by omega⟩⟩]] ∧
      (p.errors.map fun (id, e) => (id, e.id, e.cursor)) = [(2, "CMD1102", some 13)] := by
  have hparse := echoing.parseAt_append hasStandardLabels_echoing Tree.root () 0 "é " "again say 12"
  refine ⟨hasStandardLabels_echoing, _, rfl, hparse, ?_, ?_⟩
  · decide +kernel
  · decide +kernel

end Dispatcher
end Dispatch
