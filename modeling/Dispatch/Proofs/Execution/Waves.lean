import Dispatch.Execution
import Dispatch.Proofs.Parse.Derivation
import Dispatch.Proofs.Parse.FirstWord
import Dispatch.Proofs.Tree.Change
/-!
# What a run comes to

A run goes through the contexts of a parse and keeps a tally on the way, and the flag that a
redirect forked may be set in the midst of it. What it comes to can be said without any of
this. First the principals go through the contexts in waves: each wave is what the modifier of
a context returns for the principals of the wave before (`arrive`). Then the executor of the
innermost context is run for the last wave, one principal after the other (`settle`). The main
statement is that the run of a complete parse is the one and then the other, in whatever monad
the host works. So executors run only when all modifiers have been asked.
-/
namespace Dispatch
variable {m : Type → Type} [Monad m] {S E M : Type}

/-- The principals that reached the innermost context, and whether a redirect on the way
forked. -/
structure Arrival (S : Type) where
  forked : Bool
  principals : List S

/-- The principals on whose behalf the next context is run after one of them reached the first
of a chain: those that its modifier returns, or the same one if there is no modifier. -/
def successors (sources : M → Chain S E M → m (Except CommandError (List S))) (tolerant : Bool)
    (chain : Chain S E M) (source : S) : Run m (List S) :=
  match chain.outer.modifier with
  | none => pure [source]
  | some modifier => do
    match ← ExceptT.lift (sources modifier (chain.onBehalfOf source)) with
    | .ok wave => pure wave
    | .error error => if tolerant then pure [] else throw error

/-- Goes through the contexts before the innermost one. From the first one that forks on,
failures are passed over. -/
def arrive (sources : M → Chain S E M → m (Except CommandError (List S))) (tolerant : Bool)
    (principals : List S) (level : Context S E M) :
    (inner : List (Context S E M)) → Run m (Arrival S)
  | [] => pure ⟨false, principals⟩
  | next :: rest => do
    let waves ← principals.mapM (successors sources (tolerant || level.forks) ⟨level, next :: rest⟩)
    let arrival ← arrive sources (tolerant || level.forks) waves.flatten next rest
    pure { arrival with forked := (level.forks && !principals.isEmpty) || arrival.forked }

/-- Runs the innermost context for those that reached it. After a fork all of them get their
turn and those that succeed are counted; otherwise the results are added up, to the first
failure. -/
def settle (run : S → m (Except CommandError Int32)) (input : String) (arrival : Arrival S) :
    Run m Int32 :=
  if arrival.forked then do
    let results ← ExceptT.lift (arrival.principals.mapM run)
    pure (.ofNat (results.countP Except.isOk))
  else if arrival.principals.isEmpty then throw (.incomplete input)
  else do
    let results ← arrival.principals.mapM fun source => ExceptT.mk (run source)
    pure results.sum

/-- What running a parse for a principal means if its innermost context has an executor. -/
def Parse.meaning (p : Parse S E M) (host : Host m S E M) (source : S) (executor : E) :
    Run m Int32 := do
  let arrival ← arrive host.sources false [source] p.chain.outer p.chain.inner
  settle (fun source => host.run executor (p.chain.last.onBehalfOf source)) p.reader.input arrival

/-! ## The tally on the way -/

namespace Tally

/-- A principal went through a context and became those of a wave. -/
def crossed (forks : Bool) (tally : Tally) (wave : List S) : Tally :=
  { tally with
    forked := tally.forked || forks
    found := tally.found || ((tally.forked || forks) && wave.isEmpty) }

/-- An executor answered, and failures are passed over. -/
def note (tally : Tally) : Except CommandError Int32 → Tally
  | .ok result => tally.find.add result
  | .error _ => tally.find

/-- What a tally says when principals have reached a context and no executor was run. -/
structure Arrived (tally : Tally) (tolerant : Bool) (principals : List S) : Prop where
  result_eq : tally.result = 0
  successes_eq : tally.successes = 0
  forked_of_found : tally.found = true → tally.forked = true
  /-- If nobody is left, it was behind a fork or there is nothing to run. -/
  found_of_forked : principals = [] → tally.forked = true → tally.found = true
  tolerant_eq : principals ≠ [] → tolerant = tally.forked

variable {tally : Tally} {tolerant forks : Bool} {principals : List S}

theorem arrived_zero (source : S) : zero.Arrived false [source] where
  result_eq := rfl
  successes_eq := rfl
  forked_of_found := by simp [zero]
  found_of_forked := by simp
  tolerant_eq := fun _ => rfl

theorem foldl_crossed (tally : Tally) (waves : List (List S)) :
    waves.foldl (crossed forks) tally =
      { tally with
        forked := tally.forked || (forks && !waves.isEmpty)
        found := tally.found || ((tally.forked || forks) && waves.any List.isEmpty) } := by
  induction waves generalizing tally with
  | nil => simp
  | cons wave rest ih =>
    rw [List.foldl_cons, ih, crossed]
    cases forks <;> cases tally.forked <;> simp [Bool.or_assoc]

/-- After a context, the tally tells of those who have gone through. -/
theorem Arrived.crossed (h : tally.Arrived tolerant principals) (forks : Bool)
    (waves : List (List S)) (hwaves : waves = [] ↔ principals = []) :
    (waves.foldl (crossed forks) tally).Arrived (tolerant || forks) waves.flatten := by
  rw [foldl_crossed]
  refine ⟨h.result_eq, h.successes_eq, ?_, ?_, ?_⟩
  · intro hfound
    simp only [Bool.or_eq_true, Bool.and_eq_true] at hfound ⊢
    rcases hfound with hfound | ⟨hforked | hforks, hany⟩
    · exact .inl (h.forked_of_found hfound)
    · exact .inl hforked
    · refine .inr ⟨hforks, ?_⟩
      cases waves with
      | nil => simp at hany
      | cons wave rest => rfl
  · intro hnobody hforked
    cases hcases : waves with
    | nil =>
      rw [hcases] at hforked
      have hold := h.found_of_forked (hwaves.1 hcases) (by simpa using hforked)
      simp [hold]
    | cons wave rest =>
      -- Somebody was there, and has become nobody.
      have hempty : wave = [] ∧ rest.flatten = [] := by simpa [hcases] using hnobody
      rw [hcases] at hforked
      simp_all
  · intro hsomebody
    cases hcases : waves with
    | nil => simp [hcases] at hsomebody
    | cons wave rest =>
      have hne : principals ≠ [] := by simp [← hwaves, hcases]
      simp [h.tolerant_eq hne]

theorem foldl_note (tally : Tally) (results : List (Except CommandError Int32)) :
    (results.foldl note tally).forked = tally.forked ∧
      (results.foldl note tally).successes = tally.successes + results.countP Except.isOk ∧
      (results.foldl note tally).found = (tally.found || !results.isEmpty) := by
  induction results generalizing tally with
  | nil => simp
  | cons first rest ih =>
    obtain ⟨hforked, hsuccesses, hfound⟩ := ih (tally.note first)
    rw [List.foldl_cons, hforked, hsuccesses, hfound, List.countP_cons]
    cases first with
    | ok result =>
      simp [note, find, add, Except.isOk, Except.toBool]
      omega
    | error error => simp [note, find, Except.isOk, Except.toBool]

/-- After a fork, the answer counts the successes, if anything was found. -/
theorem answer_foldl_note (hforked : tally.forked = true) (hsuccesses : tally.successes = 0)
    (results : List (Except CommandError Int32)) (hfound : results = [] → tally.found = true)
    (input : String) :
    (results.foldl note tally).answer input = .ok (.ofNat (results.countP Except.isOk)) := by
  obtain ⟨hforked', hsuccesses', hfound'⟩ := tally.foldl_note results
  have hall : (results.foldl note tally).found = true := by
    rw [hfound']
    cases results with
    | nil => simp [hfound rfl]
    | cons first rest => simp
  simp [answer, hall, hforked', hforked, hsuccesses', hsuccesses]

theorem foldl_add (tally : Tally) (results : List Int32) :
    results.foldl (fun tally result => tally.find.add result) tally =
      ⟨tally.result + results.sum, tally.successes + results.length, tally.forked,
        tally.found || !results.isEmpty⟩ := by
  induction results generalizing tally with
  | nil => simp
  | cons first rest ih =>
    rw [List.foldl_cons, ih]
    simp [find, add, Int32.add_assoc]
    omega

end Tally

namespace Host
variable [LawfulMonad m] {host : Host m S E M} {level next : Context S E M}
  {rest : List (Context S E M)} {executor : E} {tally : Tally} {tolerant : Bool}
  {principals : List S}

/-- Going through a context for one principal asks its modifier and keeps the tally. -/
theorem cross_eq (hnext : next.hasNodes = true) (reached : List S) (source : S) :
    host.cross level next rest (tally, reached) source = (do
      let wave ← successors host.sources (tally.forked || level.forks) ⟨level, next :: rest⟩ source
      pure (tally.crossed level.forks wave, reached ++ wave)) := by
  simp only [cross, successors, hnext, Bool.not_true, Bool.false_eq_true, if_false]
  cases level.modifier with
  | none => simp [Tally.crossed]
  | some modifier =>
    simp only [bind_assoc]
    congr 1
    funext answer
    cases answer with
    | ok wave =>
      cases hfound : (tally.forked || level.forks) && wave.isEmpty with
      | false => simp [Tally.crossed, hfound]
      | true => simp [Tally.crossed, Tally.find, hfound]
    | error error =>
      cases hforked : tally.forked || level.forks with
      | false => simp [Tally.crossed]
      | true => simp [Tally.crossed, Tally.find, hforked]

theorem foldlM_cross (hnext : next.hasNodes = true) (reached : List S) :
    principals.foldlM (host.cross level next rest) (tally, reached) = (do
      let waves ← principals.mapM
        (successors host.sources (tally.forked || level.forks) ⟨level, next :: rest⟩)
      pure (waves.foldl (Tally.crossed level.forks) tally, reached ++ waves.flatten)) := by
  induction principals generalizing tally reached with
  | nil => simp
  | cons source others ih =>
    rw [List.foldlM_cons, cross_eq hnext, List.mapM_cons]
    simp only [bind_assoc, pure_bind, ih, List.foldl_cons]
    simp [Tally.crossed]

/-- After a fork, the innermost context is run for everyone. -/
theorem foldlM_finish_of_forked (hforked : tally.forked = true)
    (hexecutor : level.executor = some executor) :
    principals.foldlM (host.finish level) tally = (do
      let results ← ExceptT.lift
        (principals.mapM fun source => host.run executor (level.onBehalfOf source))
      pure (results.foldl Tally.note tally)) := by
  induction principals generalizing tally with
  | nil =>
    apply ExceptT.ext
    simp
  | cons source rest ih =>
    have hstep : host.finish level tally source = (do
        let answer ← ExceptT.lift (host.run executor (level.onBehalfOf source))
        pure (tally.note answer)) := by
      simp only [finish, hexecutor]
      congr 1
      funext answer
      cases answer <;> simp [Tally.note, hforked]
    have hnote : ∀ answer, (tally.note answer).forked = true := by
      rintro (_ | _) <;> exact hforked
    rw [List.foldlM_cons, hstep, List.mapM_cons]
    simp only [ExceptT.lift_bind, ExceptT.lift_pure, bind_assoc, pure_bind, ih (hnote _),
      List.foldl_cons]

/-- Otherwise, it is run until somebody fails. -/
theorem foldlM_finish_of_not_forked (hforked : tally.forked = false)
    (hexecutor : level.executor = some executor) :
    principals.foldlM (host.finish level) tally = (do
      let results ← principals.mapM fun source =>
        ExceptT.mk (host.run executor (level.onBehalfOf source))
      pure (results.foldl (fun tally result => tally.find.add result) tally)) := by
  induction principals generalizing tally with
  | nil => simp
  | cons source rest ih =>
    have hstep : host.finish level tally source = (do
        let result ← ExceptT.mk (host.run executor (level.onBehalfOf source))
        pure (tally.find.add result)) := by
      simp only [finish, hexecutor]
      apply ExceptT.ext
      rw [ExceptT.run_bind_lift, ExceptT.run_bind, ExceptT.run_mk]
      congr 1
      funext answer
      cases answer <;> simp [hforked]
    have hadd : ∀ result, (tally.find.add result).forked = false := fun _ => hforked
    rw [List.foldlM_cons, hstep, List.mapM_cons]
    simp only [bind_assoc, pure_bind, ih (hadd _), List.foldl_cons]

/-- Running the innermost context settles the run. -/
theorem finish_eq_settle (h : tally.Arrived tolerant principals)
    (hexecutor : level.executor = some executor) (input : String) :
    (do
      let tally ← principals.foldlM (host.finish level) tally
      ExceptT.mk (pure (tally.answer input))) =
    settle (fun source => host.run executor (level.onBehalfOf source)) input
      ⟨tally.forked, principals⟩ := by
  cases hforked : tally.forked with
  | true =>
    rw [foldlM_finish_of_forked hforked hexecutor, settle, if_pos rfl]
    cases principals with
    | nil =>
      have hanswer := Tally.answer_foldl_note hforked h.successes_eq []
        (fun _ => h.found_of_forked rfl hforked) input
      simp only [List.mapM_nil, ExceptT.lift_pure, pure_bind, hanswer]
      rfl
    | cons source rest =>
      have hanswer := fun first results => Tally.answer_foldl_note hforked h.successes_eq
        (first :: results) (by simp) input
      simp only [List.mapM_cons, ExceptT.lift_bind, ExceptT.lift_pure, bind_assoc, pure_bind,
        hanswer]
      rfl
  | false =>
    rw [foldlM_finish_of_not_forked hforked hexecutor, settle, if_neg Bool.false_ne_true]
    simp only [bind_assoc, pure_bind, Tally.foldl_add, Tally.answer, hforked, h.result_eq]
    cases principals with
    | nil =>
      have hfound : tally.found = false := by
        rw [Bool.eq_false_iff]
        intro hfound
        simp [h.forked_of_found hfound] at hforked
      simp only [List.mapM_nil, pure_bind, hfound, List.isEmpty_nil]
      rfl
    | cons source rest =>
      simp only [List.mapM_cons, bind_assoc, pure_bind, List.isEmpty_cons, Bool.not_false,
        Bool.or_true, Int32.zero_add]
      rfl

/-- Running the contexts is going through all but the last of them and settling at the
last. -/
theorem runLevels_eq (level : Context S E M) (inner : List (Context S E M))
    (h : tally.Arrived tolerant principals) (hnodes : ∀ next ∈ inner, next.hasNodes = true)
    (hexecutor : (inner.getLastD level).executor = some executor) (input : String) :
    (do
      let tally ← host.runLevels tally principals level inner
      ExceptT.mk (pure (tally.answer input))) = (do
    let arrival ← arrive host.sources tolerant principals level inner
    settle (fun source => host.run executor ((inner.getLastD level).onBehalfOf source)) input
      { arrival with forked := tally.forked || arrival.forked }) := by
  induction inner generalizing tally tolerant principals level with
  | nil =>
    rw [List.getLastD_nil] at hexecutor ⊢
    rw [runLevels, finish_eq_settle h hexecutor]
    simp [arrive]
  | cons next rest ih =>
    rw [List.getLastD_cons] at hexecutor ⊢
    have hnext := hnodes next (List.mem_cons_self ..)
    rw [runLevels, foldlM_cross hnext, arrive]
    simp only [bind_assoc, pure_bind, List.nil_append]
    have hrest : ∀ other ∈ rest, other.hasNodes = true := fun other hother =>
      hnodes other (List.mem_cons_of_mem next hother)
    cases principals with
    | nil =>
      have hstep := h.crossed level.forks [] (by simp)
      simp only [List.mapM_nil, pure_bind]
      rw [ih next hstep hrest hexecutor]
      simp
    | cons source others =>
      rw [h.tolerant_eq (List.cons_ne_nil source others)]
      simp only [List.mapM_cons, bind_assoc, pure_bind]
      congr 1
      funext wave
      congr 1
      funext waves
      have hstep := h.crossed level.forks (wave :: waves) (by simp)
      rw [h.tolerant_eq (List.cons_ne_nil source others)] at hstep
      rw [ih next hstep hrest hexecutor, Tally.foldl_crossed]
      simp [Bool.or_assoc]

end Host

/-! ## Running a parse -/

variable {d : Dispatcher S E M} {source : S} {input : String} {root start depth : Nat}
  {c : Context S E M} {inner : List (Context S E M)} {executor : E} {p : Parse S E M} {r : Reader}

/-- All contexts have visited something if the innermost has something to run. -/
theorem Dispatcher.Derives.hasNodes (h : d.Derives source input root start depth c inner)
    (hexecutor : (inner.getLastD c).executor = some executor) :
    ∀ level ∈ c :: inner, level.hasNodes = true := by
  induction h with
  | @innermost _ _ _ c derived =>
    have hc : c.hasNodes = true := by
      cases hnodes : c.nodes with
      | nil =>
        have hnone := derived.executor_eq
        rw [List.getLastD_nil] at hexecutor
        simp [hexecutor, hnodes, Tree.lastNode?] at hnone
      | cons v rest => simp [Context.hasNodes, hnodes]
    simpa using hc
  | @nested _ _ _ c next inner v _ _ _ last _ _ _ _ _ ih =>
    rw [List.getLastD_cons] at hexecutor
    have hc : c.hasNodes = true := by
      cases hnodes : c.nodes with
      | nil => simp [hnodes] at last
      | cons v rest => simp [Context.hasNodes, hnodes]
    intro level hlevel
    rcases List.mem_cons.1 hlevel with rfl | hlevel
    · exact hc
    · exact ih hexecutor level hlevel

theorem Dispatcher.parseFrom?_derives (hp : d.parseFrom? r source = some p) :
    d.Derives source r.input Tree.root r.cursor 0 p.chain.outer p.chain.inner := by
  rw [parseFrom?] at hp
  split at hp
  · next hr =>
    obtain rfl := Option.some.inj hp
    exact d.parseAt_derives hr Tree.root source
  · simp at hp

/-- Running a complete parse is running its contexts and answering what the tally says. -/
theorem Parse.execute_of_isComplete [LawfulMonad m] (host : Host m S E M)
    (complete : p.isComplete = true) : p.execute host = (do
      let tally ← host.runLevels .zero [p.chain.outer.source] p.chain.outer p.chain.inner
      ExceptT.mk (pure (tally.answer p.reader.input))).run := by
  rw [execute, if_pos complete, ExceptT.run_bind]
  congr 1
  funext outcome
  cases outcome <;> rfl

/-- Running a complete parse whose innermost context has an executor is what the parse means:
the same calls of the host in the same order, and the same answer. -/
theorem Parse.execute_eq_meaning [LawfulMonad m] (host : Host m S E M)
    (hp : d.parseFrom? r source = some p) (complete : p.isComplete = true)
    (hexecutor : p.chain.last.executor = some executor) :
    p.execute host = (p.meaning host source executor).run := by
  have hderives := Dispatcher.parseFrom?_derives hp
  have hnodes := hderives.hasNodes hexecutor
  have hinner : ∀ next ∈ p.chain.inner, next.hasNodes = true := fun next hnext =>
    hnodes next (List.mem_cons_of_mem p.chain.outer hnext)
  have hruns := host.runLevels_eq p.chain.outer p.chain.inner
    (Tally.arrived_zero p.chain.outer.source) hinner hexecutor p.reader.input
  rw [execute_of_isComplete host complete, hruns, hderives.outer.source_eq]
  simp [Tally.zero, Parse.meaning, Chain.last]

/-- `hello` has something to run, and `each` goes back to the root for everyone. -/
def greeter : Dispatcher Principal Nat Unit where
  tree := Tree.empty.afterAll [.register ((Sprout.literal "hello").executes 7),
    .register ((Sprout.literal "each").forward Tree.root (some ()) true)]
  config := {}

/-- Everyone is three principals, and the second of them is mute. -/
def threeHeads : Host Id Principal Nat Unit where
  run _ context := if context.source.name = "b" then .error (.failed "mute") else .ok 10
  sources _ _ := .ok [.named "a", .named "b", .named "c"]

theorem execute_each_hello : let p := greeter.parse "each hello" (.named "guest")
    p.isComplete = true ∧ p.chain.last.executor = some 7 ∧ p.execute threeHeads = .ok 2 := by
  intro p
  have hello : (Tree.empty : Tree Principal Nat Unit).Registers
      ((Sprout.literal "hello").executes 7)
      (Tree.empty.after (.register ((Sprout.literal "hello").executes 7))) 1 :=
    Tree.hasLiterals_empty.register rfl
  have literals : greeter.tree.HasLiterals :=
    (hello.literals.register (b := (Sprout.literal "each").forward Tree.root (some ()) true)
      (x := 2) rfl).literals
  have each : greeter.tree.RootLiteral "each" 2 _ := ⟨by decide, rfl, rfl⟩
  have separate : ∀ c ∈ "each".toList, c ≠ separator := by simp [separator]
  have mayUse : Node.canUse ((greeter.tree.node? 2).get rfl) (.named "guest") = true := rfl
  obtain ⟨inner, hinner, line⟩ := (Dispatcher.parse_line literals each separate (v := "hello")
    (by decide) rfl mayUse).2 Tree.root rfl (by decide)
  rw [Dispatcher.parseAt_eq] at hinner
  subst hinner
  have hp : p = _ := line
  have complete : p.isComplete = true := by
    rw [hp]
    rfl
  have executor : p.chain.last.executor = some 7 := by
    rw [hp]
    rfl
  have parsed : greeter.parseFrom? (.ofString "each hello") (.named "guest") = some p := rfl
  refine ⟨complete, executor, ?_⟩
  rw [Parse.execute_eq_meaning threeHeads parsed complete executor, hp]
  rfl

end Dispatch
