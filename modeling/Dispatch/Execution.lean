import Dispatch.Parse
/-!
# Execution

Running a parse that used up the input. The contexts of its chain are run from the outermost
in. A context that redirects is run once for every principal that reached it, and its modifier
says for which principals the next context is run; the executor of the innermost context is
run once for every principal that reached that. Once a redirect forked, failures are passed
over, and the result counts the executors that succeeded; before, a failure ends the run, and
the result is the sum of theirs.
-/
namespace Dispatch

/-- What the handles in a tree do, in a monad of the host's choice. -/
structure Host (m : Type → Type) (S E M : Type) where
  /-- Runs an executor in the innermost context. -/
  run : E → Context S E M → m (Except CommandError Int32)
  /-- Asks a redirect modifier for the principals to go on with. It is shown the context that
  redirects and those behind the redirect. -/
  sources : M → Chain S E M → m (Except CommandError (List S))

/-- A modifier need not look behind its redirect. -/
instance {S E M α : Type} : Coe (M → Context S E M → α) (M → Chain S E M → α) :=
  ⟨fun sources modifier chain => sources modifier chain.outer⟩

/-- What a run has come to. -/
structure Tally where
  /-- The sum of the results, in 32 bits. -/
  result : Int32
  /-- How many executors succeeded. -/
  successes : Nat
  /-- Whether a redirect forked. -/
  forked : Bool
  /-- Whether there was anything to run. -/
  found : Bool

namespace Tally

/-- Nothing was run yet. -/
def zero : Tally := ⟨0, 0, false, false⟩

/-- One more executor succeeded. -/
def add (tally : Tally) (result : Int32) : Tally :=
  { tally with result := tally.result + result, successes := tally.successes + 1 }

/-- There was something to run. -/
def find (tally : Tally) : Tally := { tally with found := true }

/-- What the run answers. -/
def answer (tally : Tally) (input : String) : Except CommandError Int32 :=
  if !tally.found then .error (.incomplete input)
  else .ok (if tally.forked then Int32.ofNat tally.successes else tally.result)

end Tally

/-- Effects of the host's monad that may end in an error. -/
abbrev Run (m : Type → Type) (α : Type) := ExceptT CommandError m α

namespace Host
variable {m : Type → Type} [Monad m] {S E M : Type}

/-- Goes from a context to the next one for one principal. `reached` are the principals for
which the next context will be run so far. -/
def cross (host : Host m S E M) (level next : Context S E M) (rest : List (Context S E M))
    (state : Tally × List S) (source : S) : Run m (Tally × List S) := do
  let (tally, reached) := state
  let tally := { tally with forked := tally.forked || level.forks }
  if !next.hasNodes then pure (tally, reached)
  else match level.modifier with
    | none => pure (tally, reached ++ [source])
    | some modifier =>
      match ← ExceptT.lift (host.sources modifier (.onBehalfOf ⟨level, next :: rest⟩ source)) with
      | .ok sources =>
        let tally := if tally.forked && sources.isEmpty then tally.find else tally
        pure (tally, reached ++ sources)
      | .error error => if tally.forked then pure (tally.find, reached) else throw error

/-- Runs the executor of the innermost context for one principal. -/
def finish (host : Host m S E M) (level : Context S E M) (tally : Tally) (source : S) :
    Run m Tally := do
  match level.executor with
  | none => pure tally
  | some executor =>
    match ← ExceptT.lift (host.run executor (level.onBehalfOf source)) with
    | .ok result => pure (tally.find.add result)
    | .error error => if tally.forked then pure tally.find else throw error

/-- Runs a context and those inside it for the principals that reached it. -/
def runLevels (host : Host m S E M) (tally : Tally) (sources : List S) (level : Context S E M) :
    (inner : List (Context S E M)) → Run m Tally
  | [] => sources.foldlM (host.finish level) tally
  | next :: rest => do
    let (tally, reached) ← sources.foldlM (host.cross level next rest) (tally, [])
    host.runLevels tally reached next rest

end Host

namespace Parse
variable {m : Type → Type} [Monad m] {S E M : Type}

/-- Why a parse with input left over cannot be run: the error that was met, if there is
exactly one; otherwise the command or one of its arguments is unknown. -/
def stuckError (parse : Parse S E M) : SyntaxError :=
  match parse.errors with
  | [(_, error)] => error
  | _ =>
    if parse.chain.outer.range.isEmpty then parse.reader.error .unknownCommand []
    else parse.reader.error .unknownArgument []

/-- Runs a parse. -/
def execute (parse : Parse S E M) (host : Host m S E M) : m (Except CommandError Int32) :=
  if parse.isComplete then do
    let outcome ←
      (host.runLevels .zero [parse.chain.outer.source] parse.chain.outer parse.chain.inner).run
    pure (outcome.bind fun tally => tally.answer parse.reader.input)
  else pure (.error (.malformed parse.stuckError))

end Parse

/-- Parses and runs a command line. -/
def Dispatcher.execute {m : Type → Type} [Monad m] {S E M : Type} (d : Dispatcher S E M)
    (host : Host m S E M) (input : String) (source : S) : m (Except CommandError Int32) :=
  (d.parse input source).execute host

end Dispatch
