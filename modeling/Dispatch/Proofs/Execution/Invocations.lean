import Dispatch.Execution
import Dispatch.Proofs.Parse.Access
/-!
# What a run invokes

A host can keep a journal of the executors that it is asked to run, each with the context it
is given (`Host.journaled`). The journal changes nothing about what a line comes to, and it
tells of every invocation on the way (`Dispatcher.execute_journaled`). The executor is always
that of the last node that was visited in the innermost context, which the principal of the
line could come to. The principal in the context may be another one, as the modifiers in front
of it have it. What they all keep of a principal is true of every one that an executor is run
for (`exists_calls`).
-/
namespace Dispatch
variable {S E M : Type} {α β : Type}

/-- Executors that were run and the contexts that they were given. -/
abbrev Journal (S E M : Type) := List (E × Context S E M)

namespace Host

/-- The host, which notes each executor that it is asked to run. -/
def journaled (host : Host Id S E M) : Host (StateM (Journal S E M)) S E M where
  run executor context := do
    modify (· ++ [(executor, context)])
    pure (host.run executor context)
  sources modifier chain := pure (host.sources modifier chain)

/-- All modifiers lead from principals of a kind to principals of that kind. -/
def Keeps (host : Host Id S E M) (kind : S → Prop) : Prop :=
  ∀ modifier chain sources, host.sources modifier chain = .ok sources →
    kind chain.outer.source → ∀ source ∈ sources, kind source

end Host

/-! ## Runs with a journal -/

/-- A run with a journal comes to the same as one without. All invocations that it notes are
of one kind, and what it returns is of another. -/
def Journals (invoked : E × Context S E M → Prop) (returned : α → Prop)
    (x : Run (StateM (Journal S E M)) α) (y : Run Id α) : Prop :=
  ∀ journal, ∃ calls, x.run.run journal = (y.run, journal ++ calls) ∧
    (∀ call ∈ calls, invoked call) ∧ ∀ a, y.run = .ok a → returned a

namespace Journals
variable {invoked : E × Context S E M → Prop} {returned : α → Prop} {returned' : β → Prop}

theorem pure {a : α} (h : returned a) :
    Journals invoked returned (Pure.pure a) (Pure.pure a) := by
  intro journal
  refine ⟨[], ?_, by simp, ?_⟩
  · rw [List.append_nil]
    rfl
  · rintro b hb
    obtain rfl := Except.ok.inj hb
    exact h

theorem throw (error : CommandError) :
    Journals invoked returned (throw error) (throw error) := by
  intro journal
  refine ⟨[], ?_, by simp, fun a ha => by cases ha⟩
  rw [List.append_nil]
  rfl

/-- One run and then another. -/
theorem bind {x : Run (StateM (Journal S E M)) α} {y : Run Id α}
    {f : α → Run (StateM (Journal S E M)) β} {g : α → Run Id β}
    (first : Journals invoked returned x y)
    (rest : ∀ a, returned a → Journals invoked returned' (f a) (g a)) :
    Journals invoked returned' (x >>= f) (y >>= g) := by
  intro journal
  obtain ⟨calls, hfirst, hcalls, hreturned⟩ := first journal
  rw [ExceptT.run_bind, StateT.run_bind, hfirst, ExceptT.run_bind]
  cases hy : y.run with
  | error error => exact ⟨calls, rfl, hcalls, fun b hb => by cases hb⟩
  | ok a =>
    obtain ⟨more, hrest, hmore, hlast⟩ := rest a (hreturned a hy) (journal ++ calls)
    refine ⟨calls ++ more, ?_, ?_, hlast⟩
    · rw [← List.append_assoc]
      exact hrest
    · intro call hcall
      rcases List.mem_append.1 hcall with hcall | hcall
      · exact hcalls call hcall
      · exact hmore call hcall

/-- What one step returns is where the next one starts. -/
theorem foldlM {σ : Type} {Q : α → Prop} {list : List σ}
    {f : α → σ → Run (StateM (Journal S E M)) α} {g : α → σ → Run Id α}
    (step : ∀ a, Q a → ∀ s ∈ list, Journals invoked Q (f a s) (g a s)) {a : α} (start : Q a) :
    Journals invoked Q (list.foldlM f a) (list.foldlM g a) := by
  induction list generalizing a with
  | nil => exact pure start
  | cons s rest ih =>
    rw [List.foldlM_cons, List.foldlM_cons]
    refine bind (step a start s (List.mem_cons_self ..)) fun b hb => ?_
    exact ih (fun c hc t ht => step c hc t (List.mem_cons_of_mem s ht)) hb

variable {host : Host Id S E M} {context : Context S E M}

/-- Asking a modifier notes nothing. -/
theorem sources (modifier : M) (chain : Chain S E M) :
    Journals invoked (host.sources modifier chain = ·)
      (ExceptT.lift (host.journaled.sources modifier chain))
      (ExceptT.lift (host.sources modifier chain)) := by
  intro journal
  refine ⟨[], ?_, by simp, ?_⟩
  · rw [List.append_nil]
    rfl
  · rintro answer hanswer
    exact Except.ok.inj hanswer

/-- Running an executor notes that it is run. -/
theorem run {executor : E} (h : invoked (executor, context)) :
    Journals invoked (fun _ => True) (ExceptT.lift (host.journaled.run executor context))
      (ExceptT.lift (host.run executor context)) := by
  intro journal
  refine ⟨[(executor, context)], rfl, ?_, fun _ _ => trivial⟩
  simpa using h

end Journals

/-! ## Running the contexts of a parse -/

namespace Host
variable {host : Host Id S E M} {level next : Context S E M} {kind : S → Prop}

/-- Those that go on to the next context are of the kind of those that reached this one. -/
theorem journals_cross (keeps : host.Keeps kind) {invoked : E × Context S E M → Prop}
    {rest : List (Context S E M)} {state : Tally × List S} {source : S}
    (hreached : ∀ s ∈ state.2, kind s)
    (hsource : kind source) :
    Journals invoked (fun after : Tally × List S => ∀ s ∈ after.2, kind s)
      (host.journaled.cross level next rest state source)
      (host.cross level next rest state source) := by
  obtain ⟨tally, reached⟩ := state
  simp only [cross]
  split
  · exact .pure hreached
  · cases level.modifier with
    | none =>
      refine .pure fun s hs => ?_
      rcases List.mem_append.1 hs with hs | hs
      · exact hreached s hs
      · obtain rfl := List.mem_singleton.1 hs
        exact hsource
    | some modifier =>
      refine .bind (.sources modifier _) fun answer hanswer => ?_
      cases answer with
      | ok wave =>
        refine .pure fun s hs => ?_
        rcases List.mem_append.1 hs with hs | hs
        · exact hreached s hs
        · exact keeps modifier _ wave hanswer hsource s hs
      | error error =>
        dsimp only
        split
        · exact .pure hreached
        · exact .throw error

/-- The innermost context is run for those that reached it. -/
theorem journals_finish {invoked : E × Context S E M → Prop} {tally : Tally} {source : S}
    (hinvoked : ∀ executor, level.executor = some executor →
      invoked (executor, level.onBehalfOf source)) :
    Journals invoked (fun _ => True) (host.journaled.finish level tally source)
      (host.finish level tally source) := by
  simp only [finish]
  cases hexecutor : level.executor with
  | none => exact .pure trivial
  | some executor =>
    refine .bind (.run (hinvoked executor hexecutor)) fun answer _ => ?_
    cases answer with
    | ok result => exact .pure trivial
    | error error =>
      dsimp only
      split
      · exact .pure trivial
      · exact .throw error

/-- Running some contexts invokes the executor of the innermost one, for principals of the
kind of those that reached the first. -/
theorem journals_runLevels (keeps : host.Keeps kind) (tally : Tally) {principals : List S}
    {inner : List (Context S E M)} (hprincipals : ∀ s ∈ principals, kind s)
    (invoked : E × Context S E M → Prop)
    (hinvoked : ∀ executor s, (inner.getLastD level).executor = some executor → kind s →
      invoked (executor, (inner.getLastD level).onBehalfOf s)) :
    Journals invoked (fun _ => True) (host.journaled.runLevels tally principals level inner)
      (host.runLevels tally principals level inner) := by
  induction inner generalizing tally principals level with
  | nil =>
    rw [runLevels, runLevels]
    rw [List.getLastD_nil] at hinvoked
    exact .foldlM (fun _ _ s hs => journals_finish fun executor hexecutor =>
      hinvoked executor s hexecutor (hprincipals s hs)) trivial
  | cons next rest ih =>
    rw [runLevels, runLevels]
    rw [List.getLastD_cons] at hinvoked
    refine .bind (.foldlM (Q := fun after : Tally × List S => ∀ s ∈ after.2, kind s) ?_ ?_) ?_
    · exact fun state hstate s hs => journals_cross keeps hstate (hprincipals s hs)
    · simp
    · exact fun state hstate => ih state.1 hstate hinvoked

end Host

/-! ## Running a line -/

namespace Dispatcher
variable {host : Host Id S E M} {kind : S → Prop} {source : S}

/-- With a journal, a line comes to the same as without. What is noted is that the executor of
the innermost context was run in that context, for principals of the kind of the first one. -/
theorem execute_journaled (d : Dispatcher S E M) (keeps : host.Keeps kind) (input : String)
    (hsource : kind source) (journal : Journal S E M) :
    ∃ calls, (d.execute host.journaled input source).run journal =
        (d.execute host input source, journal ++ calls) ∧
      ∀ call ∈ calls, (d.parse input source).chain.last.executor = some call.1 ∧
        ∃ s, kind s ∧ call.2 = (d.parse input source).chain.last.onBehalfOf s := by
  rw [execute, execute, Parse.execute, Parse.execute]
  split
  · have hprincipals : ∀ s ∈ [(d.parse input source).chain.outer.source], kind s := by
      have hderives : d.Derives source input Tree.root 0 0 (d.parse input source).chain.outer
          (d.parse input source).chain.inner :=
        d.parseAt_derives (Reader.isOnBoundary_ofString input) Tree.root source
      rw [hderives.outer.source_eq]
      simpa using hsource
    have hruns := Host.journals_runLevels keeps .zero hprincipals
      (fun call => (d.parse input source).chain.last.executor = some call.1 ∧
        ∃ s, kind s ∧ call.2 = (d.parse input source).chain.last.onBehalfOf s)
      fun executor s hexecutor hs => ⟨hexecutor, s, hs, rfl⟩
    obtain ⟨calls, hcalls, hinvoked, -⟩ := hruns journal
    refine ⟨calls, ?_, hinvoked⟩
    rw [StateT.run_bind, hcalls]
    rfl
  · refine ⟨[], ?_, by simp⟩
    rw [List.append_nil]
    rfl

/-- What all modifiers keep is true of every principal that an executor is run for, and the
executor is that of a node to which the principal of the line could come. -/
theorem exists_calls (d : Dispatcher S E M) (keeps : host.Keeps kind) (input : String)
    (hsource : kind source) :
    ∃ calls, (d.execute host.journaled input source).run [] =
        (d.execute host input source, calls) ∧
      ∀ call ∈ calls, kind call.2.source ∧ ∃ id node, d.tree.Accessible source id ∧
        d.tree.node? id = some node ∧ node.executor = some call.1 := by
  obtain ⟨calls, hcalls, hinvoked⟩ := d.execute_journaled keeps input hsource []
  refine ⟨calls, hcalls, fun call hcall => ?_⟩
  obtain ⟨hexecutor, s, hs, hcontext⟩ := hinvoked call hcall
  refine ⟨?_, exists_accessible_of_executor hexecutor⟩
  rw [hcontext]
  exact hs

end Dispatcher
end Dispatch
