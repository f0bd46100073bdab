import Dispatch.Proofs.Execution.Waves
/-!
# What a parse comes to

Where no context before the innermost one asks the host for principals, a parse alone decides
what running it comes to: an error, before the host is asked for anything, or one executor,
which is run once in the innermost context. That is its verdict (`Parse.verdict`), and a host
does nothing but carry it out (`Parse.execute_eq_carryOut`).
-/
namespace Dispatch
variable {S E M : Type}

/-- An error before anything is run, or an executor and the context to run it in. -/
abbrev Verdict (S E M : Type) := Except CommandError (E × Context S E M)

/-- What a host makes of a verdict. -/
def Host.carryOut {m : Type → Type} [Monad m] (host : Host m S E M) :
    Verdict S E M → m (Except CommandError Int32)
  | .error error => pure (.error error)
  | .ok (executor, context) => host.run executor context

namespace Parse

/-- What running the parse for a principal comes to if no redirect changes the principal. -/
def verdict (p : Parse S E M) (source : S) : Verdict S E M :=
  if p.isComplete then
    match p.chain.last.executor with
    | none => .error (.incomplete p.reader.input)
    | some executor => .ok (executor, p.chain.last.onBehalfOf source)
  else .error (.malformed p.stuckError)

/-- No context before the innermost one changes the principal or forks. -/
def IsDirect (p : Parse S E M) : Prop :=
  ∀ level ∈ p.chain.levels.dropLast, level.modifier = none ∧ level.forks = false

theorem isDirect_single {p : Parse S E M} {c : Context S E M} (h : p.chain = .single c) :
    p.IsDirect := by
  simp [IsDirect, h, Chain.levels, Chain.single]

theorem isDirect_pair {p : Parse S E M} {outer inner : Context S E M}
    (h : p.chain = ⟨outer, [inner]⟩) (modifier : outer.modifier = none)
    (forks : outer.forks = false) : p.IsDirect := by
  simp [IsDirect, h, Chain.levels, modifier, forks]

theorem verdict_of_not_isComplete {p : Parse S E M} (h : p.isComplete = false) (source : S) :
    p.verdict source = .error (.malformed p.stuckError) := by
  rw [verdict, h]
  rfl

theorem verdict_of_executor_none {p : Parse S E M} (complete : p.isComplete = true)
    (h : p.chain.last.executor = none) (source : S) :
    p.verdict source = .error (.incomplete p.reader.input) := by
  rw [verdict, if_pos complete, h]

/-- A complete parse fails only if there is nothing to run. -/
theorem executor_of_verdict_error {p : Parse S E M} {source : S} {error : CommandError}
    (complete : p.isComplete = true) (h : p.verdict source = .error error) :
    p.chain.last.executor = none ∧ error = .incomplete p.reader.input := by
  rw [verdict, if_pos complete] at h
  cases hexecutor : p.chain.last.executor with
  | none =>
    rw [hexecutor] at h
    exact ⟨rfl, (Except.error.inj h).symm⟩
  | some executor => simp [hexecutor] at h

theorem verdict_of_executor_some {p : Parse S E M} {executor : E} (complete : p.isComplete = true)
    (h : p.chain.last.executor = some executor) (source : S) :
    p.verdict source = .ok (executor, p.chain.last.onBehalfOf source) := by
  rw [verdict, if_pos complete, h]

end Parse

variable {m : Type → Type} [Monad m]

/-- Without a modifier, the principals stay as they are. -/
theorem arrive_of_direct [LawfulMonad m]
    (sources : M → Chain S E M → m (Except CommandError (List S))) (source : S)
    {level : Context S E M} {inner : List (Context S E M)}
    (direct : ∀ other ∈ (level :: inner).dropLast, other.modifier = none ∧ other.forks = false) :
    arrive sources false [source] level inner = pure ⟨false, [source]⟩ := by
  induction inner generalizing level with
  | nil => rfl
  | cons next rest ih =>
    rw [List.dropLast_cons_cons] at direct
    obtain ⟨modifier, forks⟩ := direct level (List.mem_cons_self ..)
    have hrest := ih fun other hother => direct other (List.mem_cons_of_mem level hother)
    simp [arrive, successors, modifier, forks, hrest]

namespace Host
variable [LawfulMonad m] (host : Host m S E M)

/-- Without a modifier, going through a context asks the host for nothing. -/
theorem foldlM_cross_of_direct {level : Context S E M} (next : Context S E M)
    (inner : List (Context S E M)) (modifier : level.modifier = none) (forks : level.forks = false)
    (sources reached : List S) :
    ∃ reached', sources.foldlM (host.cross level next inner) (.zero, reached) =
      pure (.zero, reached') := by
  induction sources generalizing reached with
  | nil => exact ⟨reached, rfl⟩
  | cons source rest ih =>
    have hstep : ∃ reached', host.cross level next inner (.zero, reached) source =
        pure (.zero, reached') := by
      simp only [cross, modifier, forks]
      split
      · exact ⟨reached, rfl⟩
      · exact ⟨reached ++ [source], rfl⟩
    obtain ⟨reached', hreached⟩ := hstep
    obtain ⟨reached'', hrest⟩ := ih reached'
    exact ⟨reached'', by rw [List.foldlM_cons, hreached, pure_bind, hrest]⟩

/-- If the innermost context has nothing to run, nothing is run. -/
theorem runLevels_of_executor_none {level : Context S E M} {inner : List (Context S E M)}
    (direct : ∀ other ∈ (level :: inner).dropLast, other.modifier = none ∧ other.forks = false)
    (hexecutor : (inner.getLastD level).executor = none) (sources : List S) :
    host.runLevels .zero sources level inner = pure .zero := by
  induction inner generalizing level sources with
  | nil =>
    rw [List.getLastD_nil] at hexecutor
    rw [runLevels]
    induction sources with
    | nil => rfl
    | cons source rest ih =>
      have hstep : host.finish level .zero source = pure .zero := by
        rw [finish, hexecutor]
      rw [List.foldlM_cons, hstep, pure_bind, ih]
  | cons next rest ih =>
    rw [List.getLastD_cons] at hexecutor
    rw [List.dropLast_cons_cons] at direct
    obtain ⟨modifier, forks⟩ := direct level (List.mem_cons_self ..)
    obtain ⟨reached, hcross⟩ := host.foldlM_cross_of_direct next rest modifier forks sources []
    rw [runLevels, hcross, pure_bind]
    exact ih (fun other hother => direct other (List.mem_cons_of_mem level hother)) hexecutor
      reached

end Host

/-- Whatever the host does, running a parse without modifiers is to carry out its verdict. -/
theorem Parse.execute_eq_carryOut [LawfulMonad m] (host : Host m S E M) {d : Dispatcher S E M}
    {r : Reader} {source : S} {p : Parse S E M} (hp : d.parseFrom? r source = some p)
    (direct : p.IsDirect) : p.execute host = host.carryOut (p.verdict source) := by
  cases complete : p.isComplete with
  | false =>
    rw [verdict_of_not_isComplete complete, execute, if_neg (by simp [complete])]
    rfl
  | true =>
    cases hexecutor : p.chain.last.executor with
    | none =>
      have hnothing := host.runLevels_of_executor_none direct hexecutor [p.chain.outer.source]
      rw [verdict_of_executor_none complete hexecutor, execute_of_isComplete host complete,
        hnothing, pure_bind]
      rfl
    | some executor =>
      have hderives := Dispatcher.parseFrom?_derives hp
      have hinner : ∀ next ∈ p.chain.inner, next.hasNodes = true := fun next hnext =>
        hderives.hasNodes hexecutor next (List.mem_cons_of_mem p.chain.outer hnext)
      have hruns := host.runLevels_eq p.chain.outer p.chain.inner
        (Tally.arrived_zero p.chain.outer.source) hinner hexecutor p.reader.input
      have harrive := arrive_of_direct host.sources source direct
      rw [verdict_of_executor_some complete hexecutor, execute_of_isComplete host complete, hruns,
        hderives.outer.source_eq, harrive]
      simp [settle, Tally.zero, Host.carryOut, Chain.last]

namespace Dispatcher
variable {d : Dispatcher S E M} {line name : String} {source : S} {error : CommandError}
  {x : Nat} {node : Node S E M} {tail : List Char}

/-- Running the line fails before the host is asked for anything. -/
structure Refuses (d : Dispatcher S E M) (line : String) (source : S) (error : CommandError) :
    Prop where
  execute_eq : ∀ {m : Type → Type} [Monad m] [LawfulMonad m] (host : Host m S E M),
    d.execute host line source = pure (.error error)

/-- A host whose executors all succeed. -/
def willing : Host Id S E M where
  run _ _ := .ok 0
  sources _ chain := .ok [chain.outer.source]

/-- A line with input left over is refused. -/
theorem refuses_of_not_isComplete (h : (d.parse line source).isComplete = false) :
    d.Refuses line source (.malformed (d.parse line source).stuckError) := by
  refine ⟨fun host => ?_⟩
  rw [execute, Parse.execute, if_neg (by simp [h])]

/-- Running a line that no redirect takes to other principals is to carry out its verdict. -/
theorem execute_of_isDirect {m : Type → Type} [Monad m] [LawfulMonad m] (host : Host m S E M)
    (direct : (d.parse line source).IsDirect) :
    d.execute host line source = host.carryOut ((d.parse line source).verdict source) := by
  have hp : d.parseFrom? (.ofString line) source = some (d.parse line source) := by
    rw [parseFrom?, if_pos (Reader.isOnBoundary_ofString line)]
    rfl
  exact Parse.execute_eq_carryOut host hp direct

theorem refuses_iff (direct : (d.parse line source).IsDirect) :
    d.Refuses line source error ↔ (d.parse line source).verdict source = .error error := by
  constructor
  · intro h
    have hrun := h.execute_eq willing
    rw [execute_of_isDirect willing direct] at hrun
    cases hverdict : (d.parse line source).verdict source with
    | error other =>
      rw [hverdict] at hrun
      exact congrArg Except.error (Except.error.inj hrun)
    | ok action =>
      rw [hverdict] at hrun
      cases hrun
  · refine fun h => ⟨fun host => ?_⟩
    rw [execute_of_isDirect host direct, h]
    rfl

/-! ## Lines that start with a literal -/

/-- The first context of a parse that goes beyond a literal is not empty. -/
theorem isEmpty_range_of_le (hname : name ≠ "")
    (h : (firstVisit line source x node name).range.stop ≤
      (d.parse line source).chain.outer.range.stop) :
    (d.parse line source).chain.outer.range.isEmpty = false := by
  have hderives : d.Derives source line Tree.root 0 0 (d.parse line source).chain.outer
      (d.parse line source).chain.inner :=
    d.parseAt_derives (Reader.isOnBoundary_ofString line) Tree.root source
  have hstart := hderives.outer.start_eq
  have hsize := Text.size_pos hname
  have hstop : (firstVisit line source x node name).range.stop = Text.size name := by
    simp [firstVisit, Span.encompassing, Taken.range, firstTaken, Context.start, Span.point]
  simp only [Span.isEmpty, hstart, beq_eq_false_iff_ne]
  omega

section
variable (literals : d.tree.HasLiterals) (hx : d.tree.RootLiteral name x node)
  (hname : IsAlias name)
include literals hx hname

/-- A literal as a line comes to running what its node has to run. -/
theorem verdict_word (huse : node.canUse source = true) :
    (d.parse name source).IsDirect ∧ (d.parse name source).verdict source =
      match node.executor with
      | none => .error (.incomplete name)
      | some executor => .ok (executor, firstVisit name source x node name) := by
  have hparse := parse_word literals hx hname.ne_separator huse
  rw [hparse]
  refine ⟨Parse.isDirect_single rfl, ?_⟩
  have complete := Parse.isComplete_word (firstVisit name source x node name) name
  cases hexecutor : node.executor with
  | none => exact Parse.verdict_of_executor_none complete hexecutor source
  | some executor => exact Parse.verdict_of_executor_some complete hexecutor source

/-- A line that starts with a literal which the principal may not use is an unknown
command. -/
theorem refuses_of_not_canUse (hline : (Reader.ofString line).peekWord = name)
    (huse : node.canUse source = false) :
    (d.parse line source).IsDirect ∧ (d.parse line source).verdict source =
      .error (.malformed ((Reader.ofString line).error .unknownCommand [])) := by
  rw [parse_of_not_canUse literals hx hline huse]
  refine ⟨Parse.isDirect_single rfl, Parse.verdict_of_not_isComplete ?_ source⟩
  have hread : (Reader.ofString line).canRead = true := by
    apply Reader.canRead_ofString
    rintro rfl
    exact hname.ne_empty (hline.symm.trans rfl)
  simp [Parse.isComplete, hread]

/-- A literal without a redirect and a separator behind it are a command with something
unknown after it. -/
theorem refuses_separator (hline : line.toList = name.toList ++ [separator])
    (huse : node.canUse source = true) (hplain : node.redirect = none) :
    ∃ error, error.id = Diagnostic.unknownArgument.id ∧
      d.Refuses line source (.malformed error) := by
  have hparse := parse_separator literals hx hname.ne_separator hline huse hplain
  have hread : (⟨line, Text.size name⟩ : Reader).canRead = true :=
    (canReadBytes_firstTaken hline).2 (by decide)
  have hstuck : (d.parse line source).isComplete = false := by
    rw [hparse]
    simp [hread]
  refine ⟨_, ?_, refuses_of_not_isComplete hstuck⟩
  have hvisited : (d.parse line source).chain.outer.range.isEmpty = false :=
    isEmpty_range_of_le hname.ne_empty
      (Nat.le_of_eq (congrArg (·.chain.outer.range.stop) hparse).symm)
  rw [hparse] at hvisited ⊢
  rw [Parse.stuckError, hvisited]
  rfl

/-- Behind a literal that redirects, a separator is the end of the line. -/
theorem isComplete_separator (keeps : d.tree.KeepsText)
    (hline : line.toList = name.toList ++ [separator])
    (huse : node.canUse source = true) {target : Nat} (hredirect : node.redirect = some target)
    (hdepth : 1 ≤ d.config.maxRedirectDepth) : (d.parse line source).isComplete = true := by
  obtain ⟨inner, hinner, hparse⟩ :=
    parse_redirect literals hx hname.ne_separator hline huse hredirect hdepth
  have hyields := d.parseAt_yields target ⟨line, Text.size name + 1⟩
    ((firstVisit line source x node name).entrance target ⟨line, Text.size name + 1⟩)
  rw [← hinner] at hyields
  have hinput := hyields.input_eq keeps
  have hcursor := hyields.onward.1
  have hone : Text.byteSize [separator] = 1 := by decide
  have hread : ¬inner.reader.canRead = true := by
    rw [Reader.canRead_iff, Reader.totalSize, hinput]
    simp only [Text.size, hline, Text.byteSize_append, hone] at hcursor ⊢
    omega
  rw [hparse]
  simp [Parse.isComplete, hread]

end

end Dispatcher
end Dispatch
