import Dispatch.Proofs.Manager.Registration
import Dispatch.Proofs.Parse.FirstWord
/-!
# Running a bare alias

The node of a secondary alias holds an executor of its own: the one that the node of its
command had when the alias was added. Both nodes ask the same of a principal, but a later
registration of the owner that brings another executor changes the node of the command only.
So the alias alone and the primary alias alone run the same exactly as long as the executor is
the one from then.
-/
namespace Dispatch
variable {S E M : Type}

/-- What kind of failure a command error reports. -/
inductive CommandError.Kind where
  | malformed
  | incomplete
  | failed
  | permissionDenied
  | unknownArgument
  | argumentType
  deriving DecidableEq, Repr

/-- The kind of a command error. -/
def CommandError.kind : CommandError → Kind
  | malformed _ => .malformed
  | incomplete _ => .incomplete
  | failed _ => .failed
  | permissionDenied _ => .permissionDenied
  | unknownArgument _ => .unknownArgument
  | argumentType _ _ => .argumentType

/-- What running a line comes to: the executors that were invoked, and how it failed if it
did. -/
structure Outcome (E : Type) where
  invoked : List E
  failure : Option CommandError.Kind
  deriving DecidableEq

/-- A host that notes the executors it is asked to run. They all succeed, and redirects keep
the principal. -/
def notingHost : Host (StateM (List E)) S E M where
  run executor _ := do
    modify (· ++ [executor])
    pure (.ok 0)
  sources _ chain := pure (.ok [chain.outer.source])

/-! ## Running a parse of one context -/

namespace Host
variable {m : Type → Type} [Monad m] [LawfulMonad m]

/-- The innermost context alone runs its executor once. -/
theorem runLevels_single (host : Host m S E M) (level : Context S E M) (source : S) :
    (host.runLevels .zero [source] level []).run =
      match level.executor with
      | none => pure (.ok .zero)
      | some executor =>
        Except.map Tally.zero.find.add <$> host.run executor (level.onBehalfOf source) := by
  rw [runLevels, List.foldlM_cons, finish]
  cases level.executor with
  | none => simp
  | some executor =>
    simp only [List.foldlM_nil, bind_pure, ExceptT.run_bind, ExceptT.run_lift, bind_map_left]
    rw [map_eq_pure_bind]
    congr 1
    funext result
    cases result with
    | ok value => rfl
    | error error => rfl

end Host

namespace Manager

/-- What running a line comes to for a principal. -/
def outcome (m : Manager S E M) (input : String) (source : S) : Outcome E :=
  let (answer, invoked) := (m.execute notingHost input source).run []
  ⟨invoked, match answer with
    | .ok _ => none
    | .error error => some error.kind⟩

/-- What running a node comes to: its executor is invoked, if it has one. -/
def outcomeOf : Option E → Outcome E
  | some executor => ⟨[executor], none⟩
  | none => ⟨[], some .incomplete⟩

theorem outcomeOf_injective {a b : Option E} (h : outcomeOf a = outcomeOf b) : a = b := by
  cases a <;> cases b <;> simp_all [outcomeOf]

variable {m : Manager S E M} {name : String} {x : Nat} {node : Node S E M}

/-- A line that is the name of a root literal runs that node, if the principal may use it. -/
theorem outcome_word (h : m.tree.HasLiterals) (hx : m.tree.RootLiteral name x node)
    (hname : IsAlias name) (source : S) :
    m.outcome name source =
      if node.canUse source then outcomeOf node.executor else ⟨[], some .malformed⟩ := by
  by_cases huse : node.canUse source = true
  · rw [if_pos huse, outcome, execute, Dispatcher.execute,
      Dispatcher.parse_word h hx hname.ne_separator huse]
    have hcomplete := Parse.isComplete_word (firstVisit name source x node name) name
    have hexecutor : (firstVisit name source x node name).executor = node.executor := rfl
    rw [Parse.execute, if_pos hcomplete]
    simp only [Parse.ended, Chain.single]
    rw [Host.runLevels_single, hexecutor]
    cases node.executor with
    | none => rfl
    | some executor => rfl
  · have hword := Reader.peekWord_word hname.ne_separator
    have hread : (Reader.ofString name).canRead = true := Reader.canRead_ofString hname.ne_empty
    rw [if_neg huse, outcome, execute, Dispatcher.execute,
      Dispatcher.parse_of_not_canUse h hx hword (Bool.eq_false_iff.2 huse)]
    simp only [Parse.execute, Parse.isComplete, hread, Bool.not_true, Bool.false_eq_true, if_false]
    rfl

/-! ## The executor of an alias -/

/-- The executor at a node. -/
def executorAt (m : Manager S E M) (id : Nat) : Option E := (m.tree.node? id).bind Node.executor

/-- Whether a principal may use a node. -/
def permits (m : Manager S E M) (id : Nat) (source : S) : Bool :=
  (m.tree.node? id).any fun node => node.canUse source

/-- A registration brings in a name. -/
structure Introduces [Capable S] (config : Config) (allowed : Registration S E M → Prop)
    (m₀ m₁ : Manager S E M) (name : String) : Prop where
  reachable : Reachable config allowed m₀
  step : Step allowed m₀ m₁
  free : m₀.registry.IsFree name
  listed : m₁.registry.Lists name

variable [Capable S] {config : Config} {allowed : Registration S E M → Prop}
  {m₀ m₁ m' : Manager S E M} {mapping : Mapping} {i : Nat} {target c : Nat}

/-- A command stays through further registrations, with its primary alias, its node and its
aliases. -/
theorem Coherent.mapping_of_steps (hm : m.Coherent)
    (steps : Relation.ReflTransGen (Step allowed) m m')
    (hi : m.registry.mappings[i]? = some mapping) :
    m'.Coherent ∧ ∃ now, m'.registry.mappings[i]? = some now ∧ now.primary = mapping.primary ∧
      now.node = mapping.node ∧ ∀ name ∈ mapping.aliases, name ∈ now.aliases := by
  induction steps with
  | refl => exact ⟨hm, mapping, hi, rfl, rfl, fun _ => id⟩
  | tail _ step ih =>
    obtain ⟨hb, was, hwas, hprimary, hnode, haliases⟩ := ih
    obtain ⟨_, _, _, _, _, _, _, _, -, hregistered⟩ := hb.step step
    obtain ⟨now, hnow, -, hprimary', hnode', haliases'⟩ := hregistered.recorded.kept hwas
    exact ⟨hregistered.coherent hb, now, hnow, hprimary'.trans hprimary, hnode'.trans hnode,
      fun name hname => haliases' name (haliases name hname)⟩

/-- So does the node of a secondary alias. -/
theorem Coherent.isAliasNode_of_steps (hm : m.Coherent)
    (steps : Relation.ReflTransGen (Step allowed) m m')
    (hi : m.registry.mappings[i]? = some mapping) (hname : name ∈ mapping.aliases)
    (hne : name ≠ mapping.primary) (hc : IsAliasNode m.tree name mapping.node c node) :
    IsAliasNode m'.tree name mapping.node c node := by
  induction steps with
  | refl => exact hc
  | tail before step ih =>
    obtain ⟨hb, was, hwas, hprimary, hnode, haliases⟩ := hm.mapping_of_steps before hi
    obtain ⟨_, _, _, _, _, _, _, _, -, hregistered⟩ := hb.step step
    rw [← hnode] at ih ⊢
    exact hregistered.isAliasNode hb hwas (haliases name hname) (hprimary ▸ hne) ih

/-- A name that a registration brings in is a primary alias, or an alias whose node runs what
the node of its command runs then. -/
theorem Introduces.alias_executor (h : Introduces config allowed m₀ m₁ name)
    (hi : m₁.registry.mappings[i]? = some mapping) (hname : name ∈ mapping.aliases)
    (hne : name ≠ mapping.primary) :
    ∃ c node, IsAliasNode m₁.tree name mapping.node c node ∧
      node.executor = m₁.executorAt mapping.node := by
  have hm₀ := h.reachable.coherent
  obtain ⟨_, _, _, _, _, _, _, _, -, hregistered⟩ := hm₀.step h.step
  obtain ⟨was, hwas, -, -, hmem⟩ | ⟨-, hnew⟩ := hregistered.alias_cases hm₀ hi hname hne
  · exact absurd hmem (hm₀.registry.isFree_iff.1 h.free i was hwas)
  · exact hnew

/-- Every alias of a reachable manager was brought in by one of its registrations. -/
theorem Reachable.exists_introduces (h : Reachable config allowed m)
    (hlists : m.registry.Lists name) :
    ∃ m₀ m₁, Introduces config allowed m₀ m₁ name ∧
      Relation.ReflTransGen (Step allowed) m₁ m := by
  induction h with
  | refl =>
    obtain ⟨i, mapping, hi, -⟩ := hlists
    simp [empty, Registry.empty] at hi
  | @tail m₀ m₁ steps step ih =>
    by_cases hfree : m₀.registry.IsFree name
    · exact ⟨m₀, m₁, ⟨steps, step, hfree, hlists⟩, .refl⟩
    · have hlists₀ : m₀.registry.Lists name := by
        rw [(Reachable.coherent steps).registry.isFree_iff] at hfree
        simpa [Registry.Lists] using hfree
      obtain ⟨first, second, hintroduces, hsteps⟩ := ih hlists₀
      exact ⟨first, second, hintroduces, hsteps.tail step⟩

omit [Capable S] in
/-- The alias of a command and its primary alias, each as a whole line. -/
theorem Coherent.outcome_alias (hm : m.Coherent)
    (hi : m.registry.mappings[i]? = some mapping) (hname : name ∈ mapping.aliases)
    (hc : IsAliasNode m.tree name mapping.node c node) (source : S) :
    m.outcome name source =
        (if m.permits mapping.node source then outcomeOf node.executor
          else ⟨[], some .malformed⟩) ∧
      m.outcome mapping.primary source =
        if m.permits mapping.node source then outcomeOf (m.executorAt mapping.node)
          else ⟨[], some .malformed⟩ := by
  obtain ⟨found, hfound⟩ := hm.primary i mapping hi
  have hpermits : m.permits mapping.node source = found.canUse source := by
    simp [permits, hfound.lookup]
  have hsame : node.canUse source = found.canUse source := hc.canUse_eq hfound.lookup source
  have hexecutor : m.executorAt mapping.node = found.executor := by
    simp [executorAt, hfound.lookup]
  have halias : ∀ other ∈ mapping.aliases, IsAlias other := fun other hother =>
    hm.registry.isAlias_of_mem hi hother
  constructor
  · rw [outcome_word hm.literals hc.literal (halias name hname), hpermits, hsame]
  · rw [outcome_word hm.literals hfound (halias _ (hm.registry.primary_mem hi)), hpermits,
      hexecutor]

/-- A secondary alias alone and the primary alias alone run the same, or fail alike, exactly
if the principal may not use the command or the command has the executor that it had when the
alias was brought in. There always is a registration that brought it in. -/
theorem outcome_alias_eq_iff (h : Reachable config allowed m) (hmapping : mapping ∈ m.mappings)
    (hname : name ∈ mapping.aliases) (hne : name ≠ mapping.primary) :
    (∃ m₀ m₁, Introduces config allowed m₀ m₁ name ∧
      Relation.ReflTransGen (Step allowed) m₁ m) ∧
    ∀ m₀ m₁, Introduces config allowed m₀ m₁ name →
      Relation.ReflTransGen (Step allowed) m₁ m → ∀ source,
        (m.outcome name source = m.outcome mapping.primary source ↔
          m.permits mapping.node source = false ∨
            m₁.executorAt mapping.node = m.executorAt mapping.node) := by
  have hm := h.coherent
  obtain ⟨i, hi⟩ := List.getElem?_of_mem hmapping
  refine ⟨h.exists_introduces ⟨i, mapping, hi, hname⟩, ?_⟩
  intro m₀ m₁ hintroduces hsteps source
  obtain ⟨j, was, hwas, hmem⟩ := hintroduces.listed
  have hm₁ : m₁.Coherent :=
    Reachable.coherent (hintroduces.reachable.tail hintroduces.step)
  -- The command that listed the name then is the one that lists it now.
  obtain ⟨-, now, hnow, hprimary, hnode, haliases⟩ := hm₁.mapping_of_steps hsteps hwas
  obtain rfl := hm.registry.index_eq hi hnow hname (haliases name hmem)
  obtain rfl : now = mapping := Option.some.inj (hnow.symm.trans hi)
  rw [hprimary] at hne
  obtain ⟨c, node, hc, hexecutor⟩ := hintroduces.alias_executor hwas hmem hne
  have hc' := hm₁.isAliasNode_of_steps hsteps hwas hmem hne hc
  rw [← hnode] at hc' hexecutor
  obtain ⟨halias, hbare⟩ := hm.outcome_alias hi hname hc' source
  rw [halias, hbare, hexecutor]
  cases m.permits now.node source with
  | false => simp
  | true =>
    simp only [if_true, Bool.true_eq_false, false_or]
    constructor
    · exact outcomeOf_injective
    · exact fun hsame => by rw [hsame]

/-- The command `tp` with something to run. -/
def tpWith (executor : Nat) (secondary : List String) : Registration Principal Nat Unit :=
  .plain "demo" ((Sprout.literal "tp").executes executor) secondary

/-- `tp` with the alias `teleport`. -/
def tpFirst : Manager Principal Nat Unit := (empty {}).after (tpWith 1 ["teleport"])

/-- `tp` registered once more, with another executor. -/
def tpSecond : Manager Principal Nat Unit := tpFirst.after (tpWith 2 [])

/-- The alias goes on running what `tp` ran at first. -/
theorem outcome_teleport_ne_outcome_tp :
    Reachable {} (fun _ => True) tpSecond ∧
    (⟨"demo", "tp", ["tp", "teleport"], 1, {}⟩ : Mapping) ∈ tpSecond.mappings ∧
    tpSecond.outcome "teleport" (.named "guest") ≠ tpSecond.outcome "tp" (.named "guest") := by
  have first : Step (fun _ => True) (empty {}) tpFirst := ⟨tpWith 1 ["teleport"], _, trivial, rfl⟩
  have second : Step (fun _ => True) tpFirst tpSecond := ⟨tpWith 2 [], _, trivial, rfl⟩
  have reachable : Reachable {} (fun _ => True) tpSecond := .tail (.tail .refl first) second
  have mem : (⟨"demo", "tp", ["tp", "teleport"], 1, {}⟩ : Mapping) ∈ tpSecond.mappings :=
    List.mem_of_getElem? (i := 0) rfl
  refine ⟨reachable, mem, fun same => ?_⟩
  have listed : "teleport" ∈ ["tp", "teleport"] := by decide
  have condition := ((outcome_alias_eq_iff reachable mem listed (by decide)).2 (empty {}) tpFirst
    ⟨.refl, first, rfl, ⟨0, _, rfl, listed⟩⟩ (.single second) (.named "guest")).1 same
  obtain admitted | executor := condition
  · exact absurd admitted (by decide)
  · exact absurd executor (by decide)

end Manager
end Dispatch
