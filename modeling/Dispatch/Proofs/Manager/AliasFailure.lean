import Dispatch.Proofs.Execution.Verdict
import Dispatch.Proofs.Manager.AliasLine
/-!
# Lines that fail behind an alias

A line that starts with the primary alias of a command may fail before anything is run: nobody
may use it, something in it is unknown, or nothing is there to run. The line with a secondary
alias in place of the primary one then fails alike, with the same kind of error and the same
code, but for one line. A single separator behind the primary alias is input left over, while
behind a secondary alias it is read as the end of the command (`failsAlike_alias_iff`).
-/
namespace Dispatch
variable {S E M : Type}

/-- Parses with errors of the same codes that are stuck behind some node give the same
code. -/
theorem Parse.id_stuckError_eq {p q : Parse S E M}
    (errors : List.Forall₂ (fun e e' => e.2.id = e'.2.id) p.errors q.errors)
    (visited : p.chain.outer.range.isEmpty = false)
    (visited' : q.chain.outer.range.isEmpty = false) : p.stuckError.id = q.stuckError.id := by
  rw [stuckError, stuckError, visited, visited']
  generalize p.errors = these, q.errors = those at errors
  cases errors with
  | nil => rfl
  | cons hfirst hrest =>
    cases hrest with
    | nil => exact hfirst
    | cons _ _ => rfl

namespace Dispatcher
variable {d : Dispatcher S E M} {name line line' : String} {x : Nat} {node : Node S E M}
  {tail : List Char} {source : S}

/-- Where running the first line fails before the host is asked for anything, so does running
the second one, with an error of the same kind and the same code. -/
def FailsAlike (d : Dispatcher S E M) (line line' : String) (source : S) : Prop :=
  ∀ error, d.Refuses line source error →
    ∃ error', d.Refuses line' source error' ∧ error'.kind = error.kind ∧ error'.id? = error.id?

/-! ## An alias and its command -/

section
variable {other primary : String} {c : Nat} {found : Node S E M}
  (standard : d.tree.IsStandard) (literals : d.tree.HasLiterals)
  (hx : d.tree.RootLiteral primary x node) (hplain : node.redirect = none)
  (hc : Manager.IsAliasNode d.tree other x c found) (hdepth : 1 ≤ d.config.maxRedirectDepth)
  (hprimary : IsAlias primary) (hother : IsAlias other)
include literals hx hc hprimary hother

/-- Those who may not use the command are told the same behind both. -/
theorem failsAlike_of_not_canUse (htail : EndsWord tail) (huse : node.canUse source = false)
    (hline : line.toList = primary.toList ++ tail) (hline' : line'.toList = other.toList ++ tail) :
    d.FailsAlike line line' source := by
  have huse' : found.canUse source = false := (hc.canUse_eq hx.lookup source).trans huse
  obtain ⟨hdirect, hverdict⟩ := refuses_of_not_canUse literals hx hprimary
    (Reader.peekWord_ofString hprimary.ne_separator hline htail) huse
  obtain ⟨hdirect', hverdict'⟩ := refuses_of_not_canUse literals hc.literal hother
    (Reader.peekWord_ofString hother.ne_separator hline' htail) huse'
  intro error hrefuses
  rw [refuses_iff hdirect, hverdict] at hrefuses
  obtain rfl := Except.error.inj hrefuses
  exact ⟨_, (refuses_iff hdirect').2 hverdict', rfl, rfl⟩

/-- The names alone fail alike if the alias has nothing to run that the command has not. -/
theorem failsAlike_word (huse : node.canUse source = true)
    (follows : found.executor ≠ none → node.executor ≠ none) :
    d.FailsAlike primary other source := by
  have huse' : found.canUse source = true := (hc.canUse_eq hx.lookup source).trans huse
  obtain ⟨hdirect, hverdict⟩ := verdict_word literals hx hprimary huse
  obtain ⟨hdirect', hverdict'⟩ := verdict_word literals hc.literal hother huse'
  intro error hrefuses
  rw [refuses_iff hdirect, hverdict] at hrefuses
  cases hexecutor : node.executor with
  | some executor => simp [hexecutor] at hrefuses
  | none =>
    have hexecutor' : found.executor = none := by
      by_contra hruns
      exact follows hruns hexecutor
    rw [hexecutor] at hrefuses
    rw [hexecutor'] at hverdict'
    obtain rfl := Except.error.inj hrefuses
    exact ⟨_, (refuses_iff hdirect').2 hverdict', rfl, rfl⟩

include standard hdepth

omit hprimary in
/-- Behind an alias the principal stays the same, and the first context is that of the
alias. -/
theorem isDirect_alias (huse : found.canUse source = true) (v : String) :
    (d.parse (other ++ (" " ++ v)) source).IsDirect ∧
      (firstVisit (other ++ (" " ++ v)) source c found other).range.stop ≤
        (d.parse (other ++ (" " ++ v)) source).chain.outer.range.stop := by
  have hroot : x ≠ Tree.root := Nat.ne_of_gt (Tree.root_lt_of_mem_childIds hx.child)
  obtain ⟨inner, hinner, hparse⟩ := parse_redirect literals hc.literal hother.ne_separator
    (Text.toList_line other v) huse hc.redirect hdepth
  obtain ⟨⟨_, _, within, _, hchain, -⟩, -, -⟩ :=
    Manager.behind_abreast standard hroot other primary v c found node source
  rw [← hinner] at hchain
  rw [hparse]
  have hpair : Chain.enter (firstVisit (other ++ (" " ++ v)) source c found other) inner.chain =
      ⟨firstVisit (other ++ (" " ++ v)) source c found other, [within]⟩ := by
    rw [hchain]
    rfl
  exact ⟨Parse.isDirect_pair hpair hc.modifier hc.forks, Nat.le_refl _⟩

include hplain

/-- A separator alone is unknown behind the command and complete behind the alias. -/
theorem not_failsAlike_separator (huse : node.canUse source = true) :
    ¬d.FailsAlike (primary ++ " ") (other ++ " ") source := by
  have huse' : found.canUse source = true := (hc.canUse_eq hx.lookup source).trans huse
  have hline := String.toList_append (s := primary) (t := " ")
  have hline' := String.toList_append (s := other) (t := " ")
  have hdirect := (isDirect_alias standard literals hx hc hdepth hother huse' "").1
  rw [String.append_empty] at hdirect
  have hcomplete := isComplete_separator literals hc.literal hother standard.keepsText hline' huse'
    hc.redirect hdepth
  obtain ⟨error, -, hrefuses⟩ := refuses_separator literals hx hprimary hline huse hplain
  intro alike
  obtain ⟨error', hrefuses', hkind, -⟩ := alike _ hrefuses
  rw [refuses_iff hdirect] at hrefuses'
  obtain ⟨-, rfl⟩ := Parse.executor_of_verdict_error hcomplete hrefuses'
  exact absurd hkind (by simp [CommandError.kind])

/-- What follows beyond a separator fails alike. -/
theorem failsAlike_line (huse : node.canUse source = true) {v : String} (hv : v ≠ "") :
    d.FailsAlike (primary ++ (" " ++ v)) (other ++ (" " ++ v)) source := by
  have huse' : found.canUse source = true := (hc.canUse_eq hx.lookup source).trans huse
  obtain ⟨outer, inner, level, below, below', same⟩ := Manager.sameBelow_of_redirect standard
    literals hx hc.literal hplain hc.redirect hdepth hother.ne_separator hprimary.ne_separator hv
    huse' huse
  have hdirect : (d.parse (primary ++ (" " ++ v)) source).IsDirect :=
    Parse.isDirect_single same.primary_chain
  obtain ⟨hdirect', houter'⟩ := isDirect_alias standard literals hx hc hdepth hother huse' v
  have houter : (firstVisit (primary ++ (" " ++ v)) source x node primary).range.stop ≤
      (d.parse (primary ++ (" " ++ v)) source).chain.outer.range.stop := by
    rw [(parse_line literals hx hprimary.ne_separator hv rfl huse).1 hplain]
    exact (d.parseAt_yields ..).onward.2
  intro error hrefuses
  rw [refuses_iff hdirect] at hrefuses
  cases hcomplete : (d.parse (primary ++ (" " ++ v)) source).isComplete with
  | false =>
    rw [Parse.verdict_of_not_isComplete hcomplete] at hrefuses
    obtain rfl := Except.error.inj hrefuses
    have hcode := Parse.id_stuckError_eq (same.errors.imp fun _ _ he => he.2.1)
      (isEmpty_range_of_le hother.ne_empty houter') (isEmpty_range_of_le hprimary.ne_empty houter)
    refine ⟨_, refuses_of_not_isComplete (same.complete.trans hcomplete), rfl, ?_⟩
    simp only [CommandError.id?, hcode]
  | true =>
    obtain ⟨hnone, rfl⟩ := Parse.executor_of_verdict_error hcomplete hrefuses
    have hcomplete' := same.complete.trans hcomplete
    have hexecutor := (same.latest (same.complete_visits hcomplete')).1
    refine ⟨_, (refuses_iff hdirect').2 (Parse.verdict_of_executor_none hcomplete' ?_ source), rfl,
      rfl⟩
    rw [same.primary_chain] at hnone
    rw [same.alias_chain]
    exact hexecutor.trans hnone

end
end Dispatcher

namespace Manager
variable {m m' : Manager S E M} {config : Config} {owner name : String} {mapping : Mapping}
  {i x c : Nat} {node : Node S E M} {source : S}

/-! ## What there is to run behind an alias -/

/-- A node of a command that has something to run keeps having something to run. -/
theorem Registered.executorAt_ne_none {b : Sprout S E M} {grant : Grant} {t : Tree S E M}
    {added : List String} {index : Nat} {old new : Mapping}
    (h : Registered m owner b m' grant t x added index old new) (hm : m.Coherent)
    (hi : m.registry.mappings[i]? = some mapping) (hruns : m.executorAt mapping.node ≠ none) :
    m'.executorAt mapping.node ≠ none := by
  obtain ⟨found, hfound⟩ := hm.primary i mapping hi
  have hexecutor : found.executor ≠ none := by
    simpa [executorAt, hfound.lookup] using hruns
  by_cases hname : mapping.primary = b.name
  · obtain ⟨was, children, hold, hnew, -⟩ | ⟨hnotin, -⟩ := h.placed.placed
    · rw [hname] at hfound
      obtain rfl := hm.literals.unique hfound hold
      obtain rfl : found = was := Option.some.inj (hfound.lookup.symm.trans hold.lookup)
      have hkept := h.aliased.kept _ _ _ hnew
      simp [executorAt, hkept.lookup, Sprout.mergeInto_executor_eq, hexecutor]
    · exact absurd (hname ▸ hfound.mem_rootNames) hnotin
  · have hkept := h.aliased.kept _ _ _ (h.placed.rootLiteral hfound hname)
    simpa [executorAt, hkept.lookup] using hexecutor

/-- An alias has nothing to run that its command has not. -/
def AliasesFollow (m : Manager S E M) : Prop :=
  ∀ (i : Nat) (mapping : Mapping) (name : String) (c : Nat) (node : Node S E M),
    m.registry.mappings[i]? = some mapping → name ∈ mapping.aliases → name ≠ mapping.primary →
      IsAliasNode m.tree name mapping.node c node → node.executor ≠ none →
        m.executorAt mapping.node ≠ none

/-- An alias starts with the executor of its command, and the command never loses its own. -/
theorem Registered.aliasesFollow {b : Sprout S E M} {grant : Grant} {t : Tree S E M}
    {added : List String} {index : Nat} {old new : Mapping}
    (h : Registered m owner b m' grant t x added index old new) (hm : m.Coherent)
    (follow : m.AliasesFollow) : m'.AliasesFollow := by
  intro i mapping name c node hi hname hne hc hruns
  obtain ⟨was, hwas, hprimary, hnode, hmem⟩ | ⟨-, c', node', hc', hexecutor⟩ :=
    h.alias_cases hm hi hname hne
  · rw [← hprimary] at hne
    obtain ⟨c', node', hc'⟩ := hm.secondary i was hwas name hmem hne
    have hkept := h.isAliasNode hm hwas hmem hne hc'
    obtain rfl := h.aliased.literals.unique hc.literal hkept.literal
    obtain rfl : node = node' :=
      Option.some.inj (hc.literal.lookup.symm.trans hkept.literal.lookup)
    rw [← hnode]
    exact h.executorAt_ne_none hm hwas (follow i was name c node hwas hmem hne hc' hruns)
  · obtain rfl := h.aliased.literals.unique hc.literal hc'.literal
    obtain rfl : node = node' :=
      Option.some.inj (hc.literal.lookup.symm.trans hc'.literal.lookup)
    rwa [executorAt, ← hexecutor]

theorem Reachable.aliasesFollow [Capable S] {allowed : Registration S E M → Prop}
    (h : Reachable config allowed m) : m.AliasesFollow := by
  induction h with
  | refl =>
    intro i mapping name c node hi
    simp [empty, Registry.empty] at hi
  | tail steps step ih =>
    have hm := Reachable.coherent steps
    obtain ⟨_, _, _, _, _, _, _, _, -, hregistered⟩ := hm.step step
    exact hregistered.aliasesFollow hm ih

/-! ## How lines fail -/

/-- What follows a name: nothing, a separator, or a separator and more. -/
theorem endsWord_cases {tail : String} (h : EndsWord tail.toList) :
    tail = "" ∨ tail = " " ∨ ∃ v, v ≠ "" ∧ tail = " " ++ v := by
  cases hlist : tail.toList with
  | nil => exact .inl (String.toList_eq_nil_iff.1 hlist)
  | cons first rest =>
    obtain rfl : first = separator := h first (by simp [hlist])
    have hsplit : tail = " " ++ String.ofList rest := by
      apply String.toList_inj.1
      simp [hlist, separator]
    by_cases hrest : String.ofList rest = ""
    · exact .inr (.inl (by rw [hsplit, hrest, String.append_empty]))
    · exact .inr (.inr ⟨_, hrest, hsplit⟩)

section
variable [Capable S]

/-- In a manager that standard registrations lead to, with valid settings, a line that starts
with the primary alias of a command and the line with a secondary alias in place of it fail
alike before anything is run, whatever follows the name; except that a separator alone makes a
difference to those who may use the command. -/
theorem failsAlike_alias_iff (h : Reachable config Registration.IsStandard m)
    (valid : config.validate = .ok ()) (hmapping : mapping ∈ m.mappings)
    (hname : name ∈ mapping.aliases) (hne : name ≠ mapping.primary) {tail : String}
    (htail : EndsWord tail.toList) (source : S) :
    m.dispatcher.FailsAlike (mapping.primary ++ tail) (name ++ tail) source ↔
      (tail = " " → m.permits mapping.node source = false) := by
  have hm := h.coherent
  have standard := h.isStandard
  obtain ⟨i, hi⟩ := List.getElem?_of_mem hmapping
  obtain ⟨node, hnode⟩ := hm.primary i mapping hi
  obtain ⟨c, found, hc⟩ := hm.secondary i mapping hi name hname hne
  have halias := hm.registry.isAlias_of_mem hi hname
  have halias' := hm.registry.isAlias_of_mem hi (hm.registry.primary_mem hi)
  have hplain := standard.plain i mapping hi node hnode.lookup
  have hconfig : m.dispatcher.config = config := h.config_eq
  have hdepth : 1 ≤ m.dispatcher.config.maxRedirectDepth := hconfig ▸ one_le_of_validate valid
  have hpermits : m.permits mapping.node source = node.canUse source := by
    simp [permits, hnode.lookup]
  rw [hpermits]
  cases huse : node.canUse source with
  | false =>
    refine iff_of_true ?_ fun _ => rfl
    exact Dispatcher.failsAlike_of_not_canUse hm.literals hnode hc halias' halias htail huse
      String.toList_append String.toList_append
  | true =>
    rcases endsWord_cases htail with rfl | rfl | ⟨v, hv, rfl⟩
    · refine iff_of_true ?_ (by simp)
      have follows : found.executor ≠ none → node.executor ≠ none := by
        intro hruns
        simpa [executorAt, hnode.lookup] using
          h.aliasesFollow i mapping name c found hi hname hne hc hruns
      rw [String.append_empty, String.append_empty]
      exact Dispatcher.failsAlike_word hm.literals hnode hc halias' halias huse follows
    · refine iff_of_false ?_ (by simp)
      exact Dispatcher.not_failsAlike_separator standard.tree hm.literals hnode hplain hc hdepth
        halias' halias huse
    · refine iff_of_true ?_ fun hspace => absurd ?_ hv
      · exact Dispatcher.failsAlike_line standard.tree hm.literals hnode hplain hc hdepth halias'
          halias huse hv
      · exact (String.append_right_inj " ").1 (hspace.trans String.append_empty.symm)

end

/-- Behind `teleport` a separator is not what it is behind `tp`. -/
theorem not_failsAlike_tp_teleport : Reachable {} Registration.IsStandard tpWordFirst ∧
    (⟨"demo", "tp", ["tp", "teleport"], 1, {}⟩ : Mapping) ∈ tpWordFirst.mappings ∧
    tpWordFirst.permits 1 (.named "guest") = true ∧
    ¬tpWordFirst.dispatcher.FailsAlike ("tp" ++ " ") ("teleport" ++ " ") (.named "guest") := by
  have mem : (⟨"demo", "tp", ["tp", "teleport"], 1, {}⟩ : Mapping) ∈ tpWordFirst.mappings :=
    List.mem_of_getElem? (i := 0) rfl
  have listed : "teleport" ∈ ["tp", "teleport"] := by decide
  refine ⟨reachable_tpWordFirst, mem, rfl, fun alike => ?_⟩
  have space : EndsWord " ".toList := endsWord_separator []
  have locked := (failsAlike_alias_iff reachable_tpWordFirst (by decide) mem listed (by decide)
    space (.named "guest")).1 alike rfl
  exact absurd locked (by decide)

end Manager
end Dispatch
