import Dispatch.Argument.Standard
import Dispatch.Manager
/-!
# The demonstration commands

A small game console on which the program runs. Two owners register commands with one manager,
so that both have a command `time`: the second one gets it with the owner's name in front.
-/
namespace Dispatch.Demo

/-- What the demonstration commands do. -/
inductive Action where
  | give
  | teleport
  | tell
  | setTime
  | queryTime
  | presetTime
  | adminTime
  | gamemode
  | toggle
  | stop
  deriving DecidableEq, Repr

/-- How the demonstration commands change the principal. -/
inductive Switch where
  /-- To a principal with a name from the line and the capabilities of the one before. -/
  | other
  deriving DecidableEq, Repr

/-- Number of characters of a text, as a result. -/
def lengthResult (text : String) : Int32 :=
  Int32.ofNat (min text.length Int32.maxValue.toInt.toNat)

/-- The time of day that a preset stands for. -/
def presetResult (preset : String) : Int32 :=
  if preset = "night" then 13000 else if preset = "noon" then 6000 else 1000

/-- The capability without which nothing is stopped. -/
def stopCapability : String := "demo.server.stop"

/-- Runs an action. -/
def Action.run (action : Action) (c : Context Principal Action Switch) :
    Except CommandError Int32 :=
  match action with
  | give => do
    let _ : String ← c.get "item"
    let amount : Option Int32 ← c.getOptional "amount"
    pure (amount.getD 1)
  | teleport => return lengthResult (← c.get "target")
  | tell => return lengthResult (← c.get "message")
  | setTime => c.get "value"
  | queryTime => pure 6000
  | presetTime => return presetResult (← c.get "preset")
  | adminTime => pure 24000
  | gamemode => pure 1
  | toggle => do
    let on : Bool ← c.get "on"
    pure (if on then 1 else 0)
  | stop => do
    c.requireCapability stopCapability
    pure 1

/-- The principals to which a switch leads. -/
def Switch.sources (switch : Switch) (c : Context Principal Action Switch) :
    Except CommandError (List Principal) :=
  match switch with
  | other => do
    let name ← c.get "who"
    pure [(Principal.named name).grantAll c.source.capabilities]

/-- What the handles of the demonstration do. -/
def host : Host Id Principal Action Switch where
  run action context := pure (action.run context)
  sources switch chain := pure (switch.sources chain.outer)

/-- Subtrees of the demonstration. -/
abbrev Branch := Sprout Principal Action Switch

/-- An argument read by one of the standard parsers. -/
def argument (name : String) (parser : StandardParser) : Branch :=
  .argument name parser.toParser

/-- Proposes the same texts everywhere. -/
def always (texts : List String) : Completer Principal Action Switch := fun _ _ => texts

/-- The items that can be given. -/
def items : List String := ["diamond", "dirt", "stick", "stone", "torch"]

/-- The names of players. -/
def players : List String := ["alex", "sam", "steve"]

/-- An argument for the name of a player. -/
def player (name : String) : Branch := (argument name .word).withCompleter (some (always players))

/-- The owner of the everyday commands. -/
def owner : String := "demo"

/-- The owner of the other command `time`. -/
def secondOwner : String := "admin"

/-- The command `give <item> [<amount>]`. -/
def give : CommandDraft Principal Action Switch where
  parameters :=
    [{ key := "item", parser := StandardParser.word.toParser, completer := some (always items) },
     { key := "amount", parser := (StandardParser.integer 1 64).toParser, isOptional := true }]
  executor := some .give
  shortDescription := some "Give an item"
  extendedDescription := some "Amount defaults to 1 and may be at most 64."

/-- The command `teleport <target>`. -/
def teleport : Branch :=
  (Sprout.literal "teleport").child ((player "target").executes .teleport)

/-- The command `tell <target> <message>`. -/
def tell : Branch :=
  (Sprout.literal "tell").child
    ((player "target").child ((argument "message" .greedy).executes .tell))

/-- The commands `time set <value>`, `time query` and `time <preset>`. -/
def time : Branch :=
  (((Sprout.literal "time").child
    ((Sprout.literal "set").child ((argument "value" (.integerFrom 0)).executes .setTime))).child
    ((Sprout.literal "query").executes .queryTime)).child
    ((argument "preset" (.choice ["day", "night", "noon"])).executes .presetTime)

/-- The command `gamemode <mode>`. -/
def gamemode : Branch :=
  (Sprout.literal "gamemode").child
    ((argument "mode" (.choice ["survival", "creative", "adventure", "spectator"])).executes
      .gamemode)

/-- The command `toggle <on>`. -/
def toggle : Branch := (Sprout.literal "toggle").child ((argument "on" .bool).executes .toggle)

/-- The command `execute run`, after which any command may follow. -/
def execute : Branch :=
  (Sprout.literal "execute").child ((Sprout.literal "run").redirectTo Tree.root)

/-- The part `as <who>` of a node, after which the node is matched again. -/
def asPlayer (node : Nat) : Branch :=
  (Sprout.literal "as").child ((player "who").forward node (some .other) false)

/-- The manager with all the demonstration commands. -/
def manager (config : Config) : Except RegistrationError (Manager Principal Action Switch) := do
  let (m, _) ← (Manager.empty config).registerCommand owner (← give.build) "give" []
  let (m, _) ← m.registerWithPermission owner teleport ["tp"]
  let (m, _) ← m.register owner tell ["msg"]
  let (m, _) ← m.register owner time []
  let (m, _) ← m.register secondOwner ((Sprout.literal "time").executes .adminTime) []
  let (m, _) ← m.register owner gamemode ["gm"]
  let (m, _) ← m.register owner toggle []
  let (m, _) ← m.register owner ((Sprout.literal "stop").executes .stop) []
  let (m, execution) ← m.register owner execute []
  let (t, _) ← m.tree.addChild execution.node (asPlayer execution.node)
  pure (m.withTree t)

end Dispatch.Demo
