import Dispatch.Demo
import Dispatch.Proofs.Execution.Invocations
import Dispatch.Proofs.Manager.Requirements
import Dispatch.Proofs.NameMap
/-!
# Privileges at the demonstration console

`execute as` makes another principal out of the one that uses it, and `execute run` starts over with
any command. Neither is a way to more than one may do. The other principal has the same
capabilities, so what an executor asks for is asked of the capabilities that the line started with.
What a node asks for is asked of the principal of the line, before any modifier; and the nodes that
lead to teleporting, the command and its alias, ask for the capability, while every other way in is
shut. That they ask for it can be seen when they are registered, and what is registered later leaves
it alone.
-/
namespace Dispatch

/-! ## Handing capabilities on -/

namespace Principal

/-- What a principal is granted is added to what it has. -/
theorem granted_grantAll (p : Principal) (capabilities : List String) :
    (p.grantAll capabilities).granted =
      capabilities.foldl (fun granted capability => granted.insert capability ()) p.granted := by
  induction capabilities generalizing p with
  | nil => rfl
  | cons capability capabilities ih => exact ih (p.grant capability)

/-- A principal that is granted what another one is granted has what that one has. -/
theorem granted_named_grantAll (name : String) (p : Principal) :
    ((named name).grantAll p.capabilities).granted = p.granted := by
  rw [granted_grantAll, capabilities, NameMap.names, List.foldl_map]
  exact p.granted.ofList_entries

/-- What a principal may do is up to what it was granted. -/
theorem hasCapability_eq {p q : Principal} (h : p.granted = q.granted) (capability : String) :
    p.hasCapability capability = q.hasCapability capability := by
  rw [hasCapability, h, ← hasCapability]

end Principal

namespace Demo

/-- Whoever acts as somebody else has the same capabilities. -/
theorem keeps_granted (granted : NameSet) : host.Keeps fun p => p.granted = granted := by
  rintro ⟨⟩ ⟨context, inner⟩ sources hsources hgranted source hsource
  have hswitch : (do
      let name ← context.get "who"
      pure [(Principal.named name).grantAll context.source.capabilities]) = .ok sources := hsources
  obtain ⟨name, -, hsingle⟩ := exists_of_bind_eq_ok hswitch
  obtain rfl := Except.ok.inj hsingle
  obtain rfl := List.mem_singleton.1 hsource
  rw [Principal.granted_named_grantAll, hgranted]

/-- Nobody stops anything without the capability. -/
theorem hasCapability_of_run_stop {context : Context Principal Action Switch} {n : Int32}
    (h : host.run .stop context = .ok n) : context.source.hasCapability stopCapability = true := by
  have hrun : (do
      context.requireCapability stopCapability
      pure 1) = .ok n := h
  obtain ⟨⟨⟩, hrequire, -⟩ := exists_of_bind_eq_ok hrun
  rw [Context.requireCapability] at hrequire
  split at hrequire
  · assumption
  · cases hrequire

/-! ## The nodes of the console -/

/-- Registers the first two commands, the second of which is `teleport`. -/
def entrance : Except RegistrationError (Manager Principal Action Switch) := do
  let (m, _) ← (Manager.empty {}).registerCommand owner (← give.build) "give" []
  let (m, _) ← m.registerWithPermission owner teleport ["tp"]
  pure m

/-- The console after its first two commands. -/
def start : Manager Principal Action Switch := entrance.toOption.getD (.empty {})

theorem entrance_eq : entrance = .ok start := rfl

/-- The commands that come later leave alone what the first ones ask for. -/
theorem retains_start {m : Manager Principal Action Switch} (h : manager {} = .ok m) :
    m.tree.Retains start.tree := by
  obtain ⟨give, hgive, h⟩ := exists_of_bind_eq_ok h
  obtain ⟨⟨m₁, _⟩, h₁, h⟩ := exists_of_bind_eq_ok h
  obtain ⟨⟨m₂, _⟩, h₂, h⟩ := exists_of_bind_eq_ok h
  have hentrance : entrance = .ok m₂ := by
    simp only [entrance, hgive, h₁, h₂, bind, Except.bind, pure, Except.pure]
  obtain rfl := Except.ok.inj (entrance_eq.symm.trans hentrance)
  obtain ⟨m₃, _, h₃, h⟩ := Manager.exists_retains_of_bind (.refl start.tree) h
  obtain ⟨m₄, _, h₄, h⟩ := Manager.exists_retains_of_bind h₃ h
  obtain ⟨m₅, _, h₅, h⟩ := Manager.exists_retains_of_bind h₄ h
  obtain ⟨m₆, _, h₆, h⟩ := Manager.exists_retains_of_bind h₅ h
  obtain ⟨m₇, _, h₇, h⟩ := Manager.exists_retains_of_bind h₆ h
  obtain ⟨m₈, _, h₈, h⟩ := Manager.exists_retains_of_bind h₇ h
  obtain ⟨m₉, _, h₉, h⟩ := Manager.exists_retains_of_bind h₈ h
  obtain ⟨⟨t, _⟩, hadd, h⟩ := exists_of_bind_eq_ok h
  obtain rfl := Except.ok.inj h
  exact (Tree.Retains.addChild hadd).trans h₉

/-- The capability for teleporting. -/
def teleportCapability : String := "demo.command.teleport"

/-- The literal `teleport`, the argument behind it, and the alias. -/
def teleportNodes : List Nat := [4, 5, 6]

/-- The two literals ask for the capability. -/
theorem canUse_start : ∀ id ∈ [4, 6], ∃ node, start.tree.node? id = some node ∧
    ∀ source, node.canUse source = source.hasCapability teleportCapability := by
  have hcommand : ∃ node, start.tree.node? 4 = some node ∧
      ∀ source, node.canUse source = source.hasCapability teleportCapability :=
    ⟨_, rfl, fun _ => Bool.and_true _⟩
  have halias : ∃ node, start.tree.node? 6 = some node ∧
      ∀ source, node.canUse source = source.hasCapability teleportCapability :=
    ⟨_, rfl, fun _ => Bool.and_true _⟩
  simpa using ⟨hcommand, halias⟩

/-- One node of the tree teleports. The two literals are the only entrances to the part of the
tree in which it is. -/
def ConfinesTeleport (t : Tree Principal Action Switch) : Prop :=
  ∀ id ∈ List.range t.size,
    ((t.node? id).bind Node.executor = some .teleport → id = 5) ∧
    (id ∉ teleportNodes → (∀ c ∈ t.childIds id, c ∈ teleportNodes → c ∈ [4, 6]) ∧
      ∀ target ∈ (t.node? id).bind Node.redirect, target ∉ teleportNodes)

instance (t : Tree Principal Action Switch) : Decidable (ConfinesTeleport t) :=
  inferInstanceAs (Decidable (∀ id ∈ List.range t.size,
    ((t.node? id).bind Node.executor = some .teleport → id = 5) ∧
    (id ∉ teleportNodes → (∀ c ∈ t.childIds id, c ∈ teleportNodes → c ∈ [4, 6]) ∧
      ∀ target ∈ (t.node? id).bind Node.redirect, target ∉ teleportNodes)))

theorem exists_confinesTeleport : ∃ m, manager {} = .ok m ∧ ConfinesTeleport m.tree := by
  have confines : (manager {}).toOption.any (fun m => decide (ConfinesTeleport m.tree)) = true := by
    decide +kernel
  cases h : manager {} with
  | error error =>
    rw [h] at confines
    cases confines
  | ok m =>
    rw [h] at confines
    exact ⟨m, rfl, of_decide_eq_true confines⟩

section
variable {m : Manager Principal Action Switch} {id : Nat} {node : Node Principal Action Switch}

theorem ConfinesTeleport.of_lookup (h : ConfinesTeleport m.tree)
    (lookup : m.tree.node? id = some node) :
    (node.executor = some .teleport → id = 5) ∧
    (id ∉ teleportNodes → (∀ c ∈ m.tree.childIds id, c ∈ teleportNodes → c ∈ [4, 6]) ∧
      ∀ target, node.redirect = some target → target ∉ teleportNodes) := by
  have hid := h id (List.mem_range.2 (Tree.lt_size_of_node? lookup))
  rw [lookup, Option.bind_some, Option.bind_some] at hid
  exact hid

theorem canUse_eq (h : manager {} = .ok m) (hid : id ∈ [4, 6])
    (lookup : m.tree.node? id = some node) (source : Principal) :
    node.canUse source = source.hasCapability teleportCapability := by
  obtain ⟨old, hold, hasks⟩ := canUse_start id hid
  obtain ⟨node', hnode', hrequirement⟩ := retains_start h id old hold
  obtain rfl := Option.some.inj (lookup.symm.trans hnode')
  rw [← hasks, Node.canUse, hrequirement, ← Node.canUse]

/-- Without the capability, nobody comes to the nodes behind the two literals. -/
theorem guards_teleportNodes (h : manager {} = .ok m) (confines : ConfinesTeleport m.tree) :
    m.tree.Guards (· ∈ teleportNodes)
      fun source => source.hasCapability teleportCapability = true where
  root_outside := by decide
  entrance := by
    intro parent c node source edge outside inside lookup mayUse
    obtain ⟨above, habove⟩ := Tree.exists_node?
      (Nat.lt_trans (Tree.lt_of_mem_childIds edge).1 (Tree.lt_of_mem_childIds edge).2)
    have hc : c ∈ [4, 6] := ((confines.of_lookup habove).2 outside).1 c edge inside
    rw [← canUse_eq h hc lookup, mayUse]
  redirect := by
    intro id node target lookup redirects outside
    exact ((confines.of_lookup lookup).2 outside).2 target redirects

end

/-! ## Running lines -/

/-- Whatever line somebody runs at the console, and however often it changes the principal,
each executor is run for a principal with just the capabilities of the one who ran the line.
Only who has the capability for it teleports, and only who has the capability for it succeeds
in stopping. -/
theorem keeps_privileges : ∃ m, manager {} = .ok m ∧ ∀ line source, ∃ calls,
    (m.execute host.journaled line source).run [] = (m.execute host line source, calls) ∧
    ∀ call ∈ calls, call.2.source.granted = source.granted ∧
      (call.1 = .teleport → source.hasCapability teleportCapability = true) ∧
      (call.1 = .stop → ∀ result, host.run call.1 call.2 = .ok result →
        source.hasCapability stopCapability = true) := by
  obtain ⟨m, h, confines⟩ := exists_confinesTeleport
  refine ⟨m, h, fun line source => ?_⟩
  have same : source.granted = source.granted := rfl
  obtain ⟨calls, hcalls, hinvoked⟩ :=
    m.dispatcher.exists_calls (keeps_granted source.granted) line same
  refine ⟨calls, hcalls, fun call hcall => ?_⟩
  obtain ⟨hgranted, id, node, accessible, lookup, hexecutor⟩ := hinvoked call hcall
  refine ⟨hgranted, ?_, ?_⟩
  · intro hteleport
    rw [hteleport] at hexecutor
    obtain rfl : id = 5 := (confines.of_lookup lookup).1 hexecutor
    exact (guards_teleportNodes h confines).allows accessible (by decide)
  · intro hstop result hresult
    rw [hstop] at hresult
    rw [← Principal.hasCapability_eq hgranted]
    exact hasCapability_of_run_stop hresult

/-- The executor is run for the other principal. -/
example : (manager {}).toOption.map (fun m =>
    ((m.execute host.journaled "execute as sam run tp alex" (.operator "op")).run []).2.map
      fun call => (call.1, call.2.source.name)) = some [(.teleport, "sam")] := by
  decide +kernel

end Demo
end Dispatch
