import Dispatch.Proofs.Execution.Verdict
import Dispatch.Proofs.Manager.Agreement
import Dispatch.Proofs.Manager.BareAlias
import Dispatch.Proofs.Tree.RedirectsAlone
/-!
# Aliases of redirecting commands

The node of a command may redirect itself, and what follows its primary alias is then parsed
at the target. A secondary alias redirects to that node, and what follows it is parsed among
the node's children. But a node that redirects has none, and its own redirect is followed from
nowhere but the node itself. So a line with more behind a secondary alias of such a command is
always refused, and behind the primary alias the same may well run.
-/
namespace Dispatch
variable {S E M : Type}

namespace Tree
variable {t t' : Tree S E M} {b : Sprout S E M} {x : Nat}

/-- The children of the root do not have children if they redirect. -/
def CommandsAlone (t : Tree S E M) : Prop :=
  ∀ x ∈ t.childIds root, t.RedirectsAt x → t.childIds x = []

/-- A registered literal that redirects has no children, neither from before nor from now. -/
theorem childIds_of_register (h : t.register b = .ok (t', x)) (redirects : t'.RedirectsAt x) :
    t'.childIds x = [] := by
  obtain ⟨-, hadd⟩ := register_eq_ok h
  obtain ⟨hlt, hcheck, hgraft⟩ := addChild_eq_ok hadd
  rw [graft_eq] at hgraft
  obtain ⟨rfl, rfl⟩ := Prod.mk.inj hgraft
  obtain ⟨children, hself⟩ := node?_graftAll_self (t.size_le_place root b).2 b.children
  have hplaced : (t.place root b).1.RedirectsAt (t.place root b).2 := by
    rw [RedirectsAt, hself] at redirects
    cases hnode : (t.place root b).1.node? (t.place root b).2 <;> simp_all [RedirectsAt]
  obtain ⟨y, hy, hplace⟩ | ⟨hnone, hplace⟩ := t.place_cases root b
  · have hbare : b.children = [] ∧
        ∀ y, (some root).bind (t.findChild? · b.name) = some y → t.childIds y = [] := by
      apply (check_eq_ok_iff.1 hcheck).alone
      rcases (redirectsAt_place_iff ..).1 hplaced with hold | ⟨-, hredirect⟩
      · rw [hplace] at hold
        exact .inr ⟨y, hy, hold⟩
      · exact .inl hredirect
    rw [hbare.1, graftAll, hplace, childIds_update]
    exact hbare.2 y hy
  · have hbare : b.children = [] := by
      apply ((check_eq_ok_iff.1 hcheck).alone ?_).1
      rcases (redirectsAt_place_iff ..).1 hplaced with hold | ⟨-, hredirect⟩
      · obtain ⟨node, hnode, -⟩ := hold.exists_node?
        rw [hplace] at hnode
        exact absurd (lt_size_of_node? hnode) (Nat.lt_irrefl _)
      · exact .inl hredirect
    have hne : t.size ≠ root := Nat.ne_of_gt t.hasRoot
    rw [hbare, graftAll, hplace, childIds_addNode hlt, if_neg hne]
    simp [childIds, node?_eq_none]

theorem CommandsAlone.register (h : t.CommandsAlone) (literals : t.HasLiterals)
    (hregister : t.register b = .ok (t', x)) : t'.CommandsAlone := by
  have hregisters := literals.register hregister
  intro y hy redirects
  by_cases hyx : y = x
  · exact hyx ▸ childIds_of_register hregister (hyx ▸ redirects)
  · have hmem : y ∈ t.childIds root := by
      obtain ⟨_, _, -, -, hchildren, -⟩ | ⟨-, -, -, hchildren, -⟩ := hregisters.placed
      · exact hchildren ▸ hy
      · simpa [hchildren, hyx] using hy
    have hsame := hregisters.others y hmem hyx
    rw [childIds, hsame]
    rw [RedirectsAt, hsame] at redirects
    exact h y hmem redirects

end Tree

/-! ## Running two lines -/

namespace Dispatcher
variable {d : Dispatcher S E M} {source : S}

/-- From a state of the host, running the line answers a result. -/
def Answers {σ : Type} (d : Dispatcher S E M) (host : Host (StateM σ) S E M) (line : String)
    (source : S) (state : σ) (result : Int32) : Prop :=
  ∃ later, (d.execute host line source).run state = (.ok result, later)

/-- Running the line can succeed. -/
def Works (d : Dispatcher S E M) (line : String) (source : S) : Prop :=
  ∃ (σ : Type) (host : Host (StateM σ) S E M) (state : σ) (result : Int32),
    d.Answers host line source state result

/-- Where running the first line succeeds, running the second one succeeds with the same
result, executor and bound values. -/
def WorksAlike (d : Dispatcher S E M) (line line' : String) (source : S) : Prop :=
  ∀ {σ : Type} (host : Host (StateM σ) S E M) (state : σ) (result : Int32),
    d.Answers host line source state result → d.Answers host line' source state result ∧
      (d.parse line' source).chain.last.executor = (d.parse line source).chain.last.executor ∧
      (d.parse line' source).chain.last.arguments.map (fun (name, bound) => (name, bound.value)) =
        (d.parse line source).chain.last.arguments.map fun (name, bound) => (name, bound.value)

/-- A line that is refused works like another one exactly if that one does not work. -/
theorem Refuses.worksAlike_iff {line line' : String} {error : CommandError}
    (h : d.Refuses line' source error) : d.WorksAlike line line' source ↔ ¬d.Works line source := by
  constructor
  · rintro alike ⟨σ, host, state, result, hanswers⟩
    obtain ⟨later, hrun⟩ := (alike host state result hanswers).1
    rw [h.execute_eq host] at hrun
    cases hrun
  · intro never σ host state result hanswers
    exact absurd ⟨σ, host, state, result, hanswers⟩ never

/-- Where a literal redirects to a node without children, nothing behind it is read. -/
theorem parse_of_bare_target (literals : d.tree.HasLiterals) {name line : String} {c target : Nat}
    {found : Node S E M} (hc : d.tree.RootLiteral name c found) (hname : IsAlias name)
    {rest : List Char} (hline : line.toList = name.toList ++ separator :: rest)
    (huse : found.canUse source = true) (hredirect : found.redirect = some target)
    (limit : 1 ≤ d.config.maxRedirectDepth) (bare : d.tree.childIds target = []) :
    d.parse line source =
      ⟨.enter (firstVisit line source c found name)
          (.single ((firstVisit line source c found name).entrance target
            ⟨line, Text.size name + 1⟩)),
        ⟨line, Text.size name + 1⟩, []⟩ := by
  obtain ⟨inner, hinner, hparse⟩ :=
    parse_redirect literals hc hname.ne_separator hline huse hredirect limit
  have hnone : ∀ r : Reader, d.tree.eligible target r source = [] := by
    intro r
    rw [Tree.eligible_eq, bare]
    rfl
  rw [parseAt_of_eligible_nil (hnone _)] at hinner
  rw [hparse, hinner]

/-- What follows such a literal is refused as an unknown argument. -/
theorem refuses_of_bare_target (literals : d.tree.HasLiterals) {name v : String} {c target : Nat}
    {found : Node S E M} (hc : d.tree.RootLiteral name c found) (hname : IsAlias name)
    (hv : v ≠ "") (huse : found.canUse source = true) (hredirect : found.redirect = some target)
    (limit : 1 ≤ d.config.maxRedirectDepth) (bare : d.tree.childIds target = []) :
    d.Refuses (name ++ (" " ++ v)) source (.malformed
      ((⟨name ++ (" " ++ v), Text.size name + 1⟩ : Reader).error .unknownArgument [])) := by
  have hparse := parse_of_bare_target literals hc hname (Text.toList_line name v) huse hredirect
    limit bare
  have hstuck : (d.parse (name ++ (" " ++ v)) source).isComplete = false := by
    rw [hparse, Parse.isComplete, Reader.canRead_line name hv]
    rfl
  have hvisited : (d.parse (name ++ (" " ++ v)) source).chain.outer.range.isEmpty = false :=
    isEmpty_range_of_le hname.ne_empty
      (Nat.le_of_eq (congrArg (·.chain.outer.range.stop) hparse).symm)
  have hrefuses := refuses_of_not_isComplete hstuck
  rw [Parse.stuckError, hvisited, hparse] at hrefuses
  exact hrefuses

end Dispatcher

namespace Manager
variable {m : Manager S E M} {config : Config} {name : String} {mapping : Mapping} {source : S}

theorem Reachable.commandsAlone [Capable S] {allowed : Registration S E M → Prop}
    (h : Reachable config allowed m) : m.tree.CommandsAlone := by
  refine h.tree_induction ?_ fun t t' b x literals alone => alone.register literals
  intro x hx
  simp at hx

/-- Why a line with more behind an alias of a redirecting command is refused: for those who
may not use the command it is unknown, and for the others what follows is. -/
def refusalBehind (m : Manager S E M) (target : Nat) (name line : String) (source : S) :
    SyntaxError :=
  if m.permits target source then
    (⟨line, Text.size name + 1⟩ : Reader).error .unknownArgument []
  else (Reader.ofString line).error .unknownCommand []

/-- In every manager that registrations lead to, a line with more behind a secondary alias of
a redirecting command is refused, whatever the host does. So it works like the line with the
primary alias in place of it only if that line does not work. -/
theorem worksAlike_alias_iff [Capable S] {allowed : Registration S E M → Prop}
    (h : Reachable config allowed m) (limit : 1 ≤ config.maxRedirectDepth)
    (hmapping : mapping ∈ m.mappings) (redirects : m.tree.RedirectsAt mapping.node)
    (hname : name ∈ mapping.aliases) (hne : name ≠ mapping.primary) {v : String} (hv : v ≠ "")
    (source : S) :
    m.dispatcher.Refuses (name ++ " " ++ v) source
        (.malformed (m.refusalBehind mapping.node name (name ++ " " ++ v) source)) ∧
      (m.dispatcher.WorksAlike (mapping.primary ++ " " ++ v) (name ++ " " ++ v) source ↔
        ¬m.dispatcher.Works (mapping.primary ++ " " ++ v) source) := by
  have hm := h.coherent
  obtain ⟨i, hi⟩ := List.getElem?_of_mem hmapping
  obtain ⟨node, hnode⟩ := hm.primary i mapping hi
  obtain ⟨c, found, hc⟩ := hm.secondary i mapping hi name hname hne
  have halias := hm.registry.isAlias_of_mem hi hname
  have hsame : found.canUse source = node.canUse source := hc.canUse_eq hnode.lookup source
  have hpermits : m.permits mapping.node source = found.canUse source := by
    simp [permits, hnode.lookup, hsame]
  have hrefuses : m.dispatcher.Refuses (name ++ " " ++ v) source
      (.malformed (m.refusalBehind mapping.node name (name ++ " " ++ v) source)) := by
    rw [refusalBehind, hpermits, String.append_assoc]
    cases huse : found.canUse source with
    | false =>
      obtain ⟨hdirect, hverdict⟩ := Dispatcher.refuses_of_not_canUse (d := m.dispatcher) hm.literals
        hc.literal halias (Reader.peekWord_line halias.ne_separator v) huse
      exact (Dispatcher.refuses_iff hdirect).2 hverdict
    | true =>
      have hconfig : m.dispatcher.config = config := h.config_eq
      exact Dispatcher.refuses_of_bare_target hm.literals hc.literal halias hv huse hc.redirect
        (hconfig ▸ limit) (h.commandsAlone mapping.node hnode.child redirects)
  exact ⟨hrefuses, hrefuses.worksAlike_iff⟩

/-- `hello` has something to run, and `again`, with the alias `encore`, goes back to the
root. -/
def greetings : Manager Principal Nat Unit :=
  (empty {}).afterAll [.plain "demo" ((Sprout.literal "hello").executes 7) [],
    .plain "demo" ((Sprout.literal "again").redirectTo Tree.root) ["encore"]]

/-- `again hello` runs `hello`, and `encore hello` does not. -/
theorem not_worksAlike_again_encore : Reachable {} (fun _ => True) greetings ∧
    (⟨"demo", "again", ["again", "encore"], 2, {}⟩ : Mapping) ∈ greetings.mappings ∧
    greetings.tree.RedirectsAt 2 ∧ ¬greetings.dispatcher.WorksAlike ("again" ++ " " ++ "hello")
      ("encore" ++ " " ++ "hello") (.named "guest") := by
  have start : Reachable {} (fun _ => True) (empty {} : Manager Principal Nat Unit) := .refl
  have reachable : Reachable {} (fun _ => True) greetings := start.afterAll fun _ _ => trivial
  have mem : (⟨"demo", "again", ["again", "encore"], 2, {}⟩ : Mapping) ∈ greetings.mappings :=
    List.mem_of_getElem? (i := 1) rfl
  have listed : "encore" ∈ ["again", "encore"] := by decide
  have redirects : greetings.tree.RedirectsAt 2 := Option.some_ne_none Tree.root
  refine ⟨reachable, mem, redirects, fun alike => ?_⟩
  have never := (worksAlike_alias_iff reachable (by decide) mem redirects listed (by decide)
    (v := "hello") (by decide) (.named "guest")).2.1 alike
  apply never
  have again : greetings.dispatcher.tree.RootLiteral "again" 2 _ := ⟨by decide, rfl, rfl⟩
  have separate := (reachable.coherent.registry.normal "again" 1 rfl).ne_separator
  have mayUse : Node.canUse ((greetings.tree.node? 2).get rfl) (.named "guest") = true := rfl
  obtain ⟨inner, hinner, line⟩ := (Dispatcher.parse_line reachable.coherent.literals again separate
    (v := "hello") (by decide) rfl mayUse).2 Tree.root rfl (by decide)
  rw [Dispatcher.parseAt_eq] at hinner
  subst hinner
  have parsed : greetings.dispatcher.parseFrom? (.ofString "again hello") (.named "guest") =
    some (greetings.dispatcher.parse ("again" ++ (" " ++ "hello")) (.named "guest")) := rfl
  refine ⟨List Nat, notingHost, [], 0, [7], ?_⟩
  rw [String.append_assoc, Dispatcher.execute, Parse.execute_eq_carryOut notingHost parsed, line]
  · rfl
  · rw [line]
    exact Parse.isDirect_pair rfl rfl rfl

end Manager
end Dispatch
