import Dispatch.Proofs.Execution.Waves
import Dispatch.Proofs.Parse.Hiding
/-!
# Success without an executor

A parse whose last node has nothing to run fails as incomplete, after its modifiers were
asked. There is one way around this: once a redirect forked, a modifier that fails or returns
nobody counts as having run, and the run then succeeds with 0. So success tells of an executor
or of somebody who became nobody behind a fork (`strands`). Which of the two it is depends on
the modifiers alone.

Nobody goes on to a context in which nothing was visited, and the modifier in front of it is
not asked. `Chain.asked` leaves it out.
-/
namespace Dispatch
variable {m : Type → Type} [Monad m] {S E M : Type}

/-- Goes through some contexts, each with those behind it, and says whether somebody became
nobody from the first one on that forks. -/
def strands (sources : M → Chain S E M → m (Except CommandError (List S))) (tolerant : Bool)
    (principals : List S) : (chains : List (Chain S E M)) → Run m Bool
  | [] => pure false
  | chain :: rest => do
    let waves ← principals.mapM (successors sources (tolerant || chain.outer.forks) chain)
    let stranded ← strands sources (tolerant || chain.outer.forks) waves.flatten rest
    pure (((tolerant || chain.outer.forks) && waves.any List.isEmpty) || stranded)

/-- The contexts whose modifiers are asked, each with those behind it: the ones before a
context in which nothing was visited. -/
def Context.asked (level : Context S E M) : (inner : List (Context S E M)) → List (Chain S E M)
  | [] => []
  | next :: rest => if next.hasNodes then ⟨level, next :: rest⟩ :: next.asked rest else []

/-- The contexts of a chain whose modifiers are asked, each with those behind it. -/
def Chain.asked (chain : Chain S E M) : List (Chain S E M) := chain.outer.asked chain.inner

/-- The last node that was visited in the innermost context has something to run. -/
def Dispatcher.Resolves (d : Dispatcher S E M) (p : Parse S E M) : Prop :=
  ∃ v node executor, p.chain.last.nodes.getLast? = some v ∧ d.tree.node? v.node = some node ∧
    node.executor = some executor

theorem Dispatcher.resolves_iff {d : Dispatcher S E M} {p : Parse S E M} :
    d.Resolves p ↔ ((d.tree.lastNode? p.chain.last.nodes).bind Node.executor).isSome = true := by
  rw [Tree.lastNode?, Option.isSome_iff_exists]
  simp only [Option.bind_eq_some_iff]
  constructor
  · rintro ⟨v, node, executor, hlast, hnode, hexecutor⟩
    exact ⟨executor, node, ⟨v, hlast, hnode⟩, hexecutor⟩
  · rintro ⟨executor, node, ⟨v, hlast, hnode⟩, hexecutor⟩
    exact ⟨v, node, executor, hlast, hnode, hexecutor⟩

instance (d : Dispatcher S E M) (p : Parse S E M) : Decidable (d.Resolves p) :=
  decidable_of_iff _ Dispatcher.resolves_iff.symm

/-! ## Running contexts without an executor -/

/-- If no executor was run, the answer is 0 or that the line is incomplete. -/
theorem Tally.answer_of_nothing (tally : Tally) (result : tally.result = 0)
    (successes : tally.successes = 0) (input : String) :
    tally.answer input = if tally.found then .ok 0 else .error (.incomplete input) := by
  rw [answer, result, successes]
  cases tally.found with
  | false => rfl
  | true => exact congrArg Except.ok (ite_self 0)

namespace Host
variable [LawfulMonad m] {host : Host m S E M} {level next : Context S E M} {tally : Tally}
  {tolerant : Bool} {principals : List S}

/-- Nobody goes on to a context in which nothing was visited, and no modifier is asked. -/
theorem foldlM_cross_of_not_hasNodes (host : Host m S E M) (level : Context S E M)
    (inner : List (Context S E M)) (hnext : next.hasNodes = false) (principals : List S)
    (tally : Tally) (reached : List S) :
    ∃ forked, principals.foldlM (host.cross level next inner) (tally, reached) =
      pure ({ tally with forked }, reached) := by
  induction principals generalizing tally with
  | nil => exact ⟨tally.forked, rfl⟩
  | cons source rest ih =>
    have hstep : host.cross level next inner (tally, reached) source =
        pure ({ tally with forked := tally.forked || level.forks }, reached) := by
      simp [cross, hnext]
    obtain ⟨forked, hrest⟩ := ih { tally with forked := tally.forked || level.forks }
    exact ⟨forked, by rw [List.foldlM_cons, hstep, pure_bind, hrest]⟩

theorem runLevels_nobody (host : Host m S E M) (tally : Tally) (level : Context S E M)
    (inner : List (Context S E M)) : host.runLevels tally [] level inner = pure tally := by
  induction inner generalizing level with
  | nil => rfl
  | cons next rest ih => simp [runLevels, ih]

/-- Without an executor, the principals only go through the contexts. -/
theorem runLevels_eq_strands (level : Context S E M) (inner : List (Context S E M))
    (h : tally.Arrived tolerant principals) (hexecutor : (inner.getLastD level).executor = none)
    (input : String) : (do
      let tally ← host.runLevels tally principals level inner
      ExceptT.mk (pure (tally.answer input))) = (do
    let stranded ← strands host.sources tolerant principals (level.asked inner)
    ExceptT.mk (pure (if tally.found || stranded then .ok 0 else .error (.incomplete input)))) := by
  induction inner generalizing tally tolerant principals level with
  | nil =>
    rw [List.getLastD_nil] at hexecutor
    have hfinish : host.finish level = fun tally _ => pure tally := by
      funext tally source
      rw [finish, hexecutor]
    rw [runLevels, hfinish, Context.asked, strands]
    simp [List.foldlM_pure, tally.answer_of_nothing h.result_eq h.successes_eq]
  | cons next rest ih =>
    rw [List.getLastD_cons] at hexecutor
    cases hnext : next.hasNodes with
    | false =>
      obtain ⟨forked, hcross⟩ :=
        host.foldlM_cross_of_not_hasNodes level rest hnext principals tally []
      rw [runLevels, hcross, Context.asked, hnext, if_neg Bool.false_ne_true, strands]
      have hanswer := Tally.answer_of_nothing { tally with forked } h.result_eq h.successes_eq input
      simp only [pure_bind, runLevels_nobody, Bool.or_false, hanswer]
    | true =>
      rw [runLevels, foldlM_cross hnext, Context.asked, if_pos hnext, strands]
      simp only [bind_assoc, pure_bind, List.nil_append]
      cases principals with
      | nil =>
        have hstep := h.crossed level.forks [] (by simp)
        simp only [List.mapM_nil, pure_bind]
        rw [ih next hstep hexecutor]
        simp
      | cons source others =>
        rw [h.tolerant_eq (List.cons_ne_nil source others)]
        simp only [List.mapM_cons, bind_assoc, pure_bind]
        congr 1
        funext wave
        congr 1
        funext waves
        have hstep := h.crossed level.forks (wave :: waves) (by simp)
        rw [h.tolerant_eq (List.cons_ne_nil source others)] at hstep
        rw [ih next hstep hexecutor, Tally.foldl_crossed]
        simp only [Bool.or_assoc]

end Host

/-- A run that goes on to succeed only where it was told to was told so. -/
theorem run_eq_ok_of_branch {σ : Type} {x : Run (StateM σ) Bool} {error : CommandError}
    {state later : σ} {result : Int32}
    (h : (do
      let b ← x
      ExceptT.mk (pure (if b then .ok 0 else .error error)) : Run (StateM σ) Int32).run.run state =
        (.ok result, later)) :
    result = 0 ∧ x.run.run state = (.ok true, later) := by
  rw [ExceptT.run_bind, StateT.run_bind] at h
  cases hx : x.run.run state with
  | mk outcome after =>
    rw [hx] at h
    rcases outcome with error' | _ | _
    · have hfails : ((.error error' : Except CommandError Int32), after) = (.ok result, later) := h
      simp at hfails
    · have hfails : ((.error error : Except CommandError Int32), after) = (.ok result, later) := h
      simp at hfails
    · have hsucceeds : ((.ok 0 : Except CommandError Int32), after) = (.ok result, later) := h
      obtain ⟨hresult, rfl⟩ := Prod.mk.inj hsucceeds
      exact ⟨(Except.ok.inj hresult).symm, rfl⟩

/-! ## Running a line -/

namespace Dispatcher
variable {d : Dispatcher S E M}

/-- A parse resolves if its innermost context has an executor. -/
theorem Derives.resolves_of_executor {source : S} {input : String} {root start depth : Nat}
    {p : Parse S E M}
    (h : d.Derives source input root start depth p.chain.outer p.chain.inner)
    (hexecutor : p.chain.last.executor ≠ none) : d.Resolves p := by
  obtain ⟨_, _, derived⟩ := h.isDerived p.chain.last List.getLastD_mem_cons
  rw [derived.executor_eq] at hexecutor
  exact resolves_iff.2 (Option.isSome_iff_ne_none.2 hexecutor)

/-- A complete parse that does not resolve is incomplete unless somebody went astray behind a
fork; before a fork, an error of a modifier comes first. -/
theorem execute_of_not_resolves [LawfulMonad m] (d : Dispatcher S E M) (host : Host m S E M)
    {input : String} {source : S} (complete : (d.parse input source).isComplete = true)
    (unresolved : ¬d.Resolves (d.parse input source)) :
    d.execute host input source = (do
      let stranded ← strands host.sources false [source] (d.parse input source).chain.asked
      ExceptT.mk (pure (if stranded then .ok 0
        else .error (.incomplete (d.parse input source).reader.input)))).run := by
  have hderives : d.Derives source input Tree.root 0 0 (d.parse input source).chain.outer
      (d.parse input source).chain.inner :=
    d.parseAt_derives (Reader.isOnBoundary_ofString input) Tree.root source
  have hexecutor : (d.parse input source).chain.last.executor = none :=
    Classical.byContradiction fun hne => unresolved (hderives.resolves_of_executor hne)
  have hruns := host.runLevels_eq_strands (d.parse input source).chain.outer
    (d.parse input source).chain.inner (Tally.arrived_zero source) hexecutor
    (d.parse input source).reader.input
  rw [execute, Parse.execute_of_isComplete host complete, hderives.outer.source_eq, hruns]
  simp only [Tally.zero, Bool.false_or]
  rfl

/-- Running a line whose parse does not resolve only asks the modifiers. It fails with the
first error of one that is met in front of a fork, and as incomplete otherwise, except that it
answers 0 if behind a fork somebody became nobody. So it succeeds only if the parse resolves
or in that case. What is incomplete is the text of the reader that the parse ends with; that
is the line, unless parsers replace it.
-/
theorem resolves_or_strands [LawfulMonad m] (d : Dispatcher S E M) (input : String) (source : S) :
    (∀ host : Host m S E M, (d.parse input source).isComplete = true →
      ¬d.Resolves (d.parse input source) → d.execute host input source = (do
        let stranded ← strands host.sources false [source] (d.parse input source).chain.asked
        ExceptT.mk (pure (if stranded then .ok 0
          else .error (.incomplete (d.parse input source).reader.input)))).run) ∧
    (d.tree.KeepsText → (d.parse input source).reader.input = input) ∧
    ∀ {σ : Type} (host : Host (StateM σ) S E M) (state later : σ) (result : Int32),
      (d.execute host input source).run state = (.ok result, later) →
        d.Resolves (d.parse input source) ∨ (result = 0 ∧
          (strands host.sources false [source]
            (d.parse input source).chain.asked).run.run state = (.ok true, later)) := by
  refine ⟨fun host => d.execute_of_not_resolves host,
    (d.parseAt_yields Tree.root (.ofString input) _).input_eq,
    fun {σ} host state later result answers => ?_⟩
  by_cases resolves : d.Resolves (d.parse input source)
  · exact .inl resolves
  · refine .inr ?_
    cases complete : (d.parse input source).isComplete with
    | false =>
      rw [execute, Parse.execute, complete, if_neg Bool.false_ne_true] at answers
      exact absurd (congrArg Prod.fst answers) (by simp)
    | true =>
      rw [d.execute_of_not_resolves host complete resolves] at answers
      exact run_eq_ok_of_branch answers

/-- `give stone`, which has nothing to run, and `none` that forks back to the root. -/
def quarry : Dispatcher Principal Nat Unit where
  tree := Tree.empty.afterAll [.register ((Sprout.literal "give").child (.literal "stone")),
    .register ((Sprout.literal "none").forward Tree.root (some ()) true)]
  config := {}

/-- A host that selects nobody. -/
def nobody : Host (StateM Unit) Principal Nat Unit where
  run _ _ := pure (.ok 1)
  sources _ _ := pure (.ok [])

/-- The run succeeds, and nothing on the line can be run. -/
theorem execute_none_give_stone :
    (quarry.parse "none give stone" (.named "guest")).isComplete = true ∧
    ¬quarry.Resolves (quarry.parse "none give stone" (.named "guest")) ∧
    ((quarry.execute nobody "none give stone" (.named "guest")).run ()).1 = .ok 0 := by
  decide +kernel

/-- Without the fork the line is incomplete, and with it somebody became nobody. -/
theorem strands_none_give_stone :
    quarry.execute nobody "give stone" (.named "guest") =
      pure (.error (.incomplete "give stone")) ∧
    (strands nobody.sources false [.named "guest"]
      (quarry.parse "none give stone" (.named "guest")).chain.asked).run.run () =
        (.ok true, ()) := by
  constructor
  · have asked : (quarry.parse "give stone" (.named "guest")).chain.asked = [] :=
      List.eq_nil_of_length_eq_zero (by decide +kernel)
    have keeps : quarry.tree.KeepsText := Tree.keepsText_of_isLiteral (by decide +kernel)
    obtain ⟨fails, kept, -⟩ := quarry.resolves_or_strands (m := StateM Unit) "give stone"
      (.named "guest")
    rw [fails nobody (by decide +kernel) (by decide +kernel), asked, kept keeps]
    rfl
  · have answers : (quarry.execute nobody "none give stone" (.named "guest")).run () =
        (.ok 0, ()) := Prod.ext (by decide +kernel) rfl
    obtain resolves | ⟨-, stranded⟩ := (quarry.resolves_or_strands (m := Id) "none give stone"
      (.named "guest")).2.2 nobody () () 0 answers
    · exact absurd resolves (by decide +kernel)
    · exact stranded

end Dispatcher
end Dispatch
