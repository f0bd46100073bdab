import Dispatch.Proofs.NameMap
import Dispatch.Proofs.Text.LowerCase
import Dispatch.Registry
/-!
# Registries are coherent

A registry keeps its commands twice: as mappings, each with its aliases, and as an index from
alias to mapping. `Registry.Coherent` says that the two agree, so that an alias belongs to one
command only. What can be granted is stated beside it (`resolvePrimary_grants`,
`resolveSecondary_fresh`), and `record_records` says what recording a grant makes of a
coherent registry: one mapping is added or gets more aliases, the others stay, and the result
is coherent.
-/
namespace Dispatch

/-- A text that can be kept as an alias: a word in lower case. -/
structure IsAlias (name : String) : Prop where
  word : Text.isWord name = true
  lower : Text.toLower name = name

theorem isAlias_of_normalizeAlias {name kept : String} (h : normalizeAlias name = .ok kept) :
    IsAlias kept := by
  simp only [normalizeAlias] at h
  split at h
  · next hword =>
    obtain rfl := Except.ok.inj h
    exact ⟨Text.isWord_toLower hword, Text.toLower_toLower name⟩
  · simp at h

namespace Registry
variable {r : Registry} {owner name : String} {config : Config} {grant : Grant} {index i : Nat}

/-- The index and the mappings tell the same. -/
structure Coherent (r : Registry) : Prop where
  /-- An alias leads to the command that lists it. -/
  leads : ∀ (name : String) (i : Nat), r.indices.get? name = some i ↔
    ∃ mapping, r.mappings[i]? = some mapping ∧ name ∈ mapping.aliases
  /-- The first alias of a command is its primary one. -/
  primary : ∀ (i : Nat) (mapping : Mapping), r.mappings[i]? = some mapping →
    mapping.aliases.head? = some mapping.primary
  nodup : ∀ (i : Nat) (mapping : Mapping), r.mappings[i]? = some mapping → mapping.aliases.Nodup
  normal : ∀ (name : String) (i : Nat), r.indices.get? name = some i → IsAlias name

theorem coherent_empty : empty.Coherent where
  leads := by simp [empty]
  primary := by simp [empty]
  nodup := by simp [empty]
  normal := by simp [empty]

theorem Coherent.primary_mem (h : r.Coherent) {mapping : Mapping}
    (hi : r.mappings[i]? = some mapping) : mapping.primary ∈ mapping.aliases :=
  List.mem_of_mem_head? (h.primary i mapping hi)

theorem Coherent.isAlias_of_mem (h : r.Coherent) {mapping : Mapping}
    (hi : r.mappings[i]? = some mapping) (hname : name ∈ mapping.aliases) : IsAlias name :=
  h.normal name i ((h.leads name i).2 ⟨mapping, hi, hname⟩)

/-- Commands that share an alias are one. -/
theorem Coherent.index_eq (h : r.Coherent) {j : Nat} {mapping other : Mapping}
    (hi : r.mappings[i]? = some mapping) (hj : r.mappings[j]? = some other)
    (hmem : name ∈ mapping.aliases) (hmem' : name ∈ other.aliases) : i = j := by
  have hname := (h.leads name i).2 ⟨mapping, hi, hmem⟩
  have hname' := (h.leads name j).2 ⟨other, hj, hmem'⟩
  exact Option.some.inj (hname.symm.trans hname')

/-- An alias leads to a command exactly if that lists it. -/
theorem Coherent.get?_eq_some_iff (h : r.Coherent) {mapping : Mapping} :
    r.get? name = some mapping ↔
      ∃ i : Nat, r.mappings[i]? = some mapping ∧ Text.toLower name ∈ mapping.aliases := by
  rw [get?, Option.bind_eq_some_iff]
  constructor
  · rintro ⟨i, hget, hi⟩
    obtain ⟨other, hother, hmem⟩ := (h.leads _ i).1 hget
    obtain rfl : other = mapping := Option.some.inj (hother.symm.trans hi)
    exact ⟨i, hi, hmem⟩
  · rintro ⟨i, hi, hmem⟩
    exact ⟨i, (h.leads _ i).2 ⟨mapping, hi, hmem⟩, hi⟩

/-- A command lists the name. -/
def Lists (r : Registry) (name : String) : Prop :=
  ∃ (i : Nat) (mapping : Mapping), r.mappings[i]? = some mapping ∧ name ∈ mapping.aliases

/-- The name leads to no command. -/
def IsFree (r : Registry) (name : String) : Prop := r.indices.get? name = none

theorem Coherent.isFree_iff (h : r.Coherent) :
    r.IsFree name ↔ ∀ (i : Nat) (mapping : Mapping), r.mappings[i]? = some mapping →
      name ∉ mapping.aliases := by
  constructor
  · intro hfree i mapping hi hmem
    have hsome := (h.leads name i).2 ⟨mapping, hi, hmem⟩
    rw [hfree] at hsome
    simp at hsome
  · intro hfree
    cases hget : r.indices.get? name with
    | none => exact hget
    | some i =>
      obtain ⟨mapping, hi, hmem⟩ := (h.leads name i).1 hget
      exact absurd hmem (hfree i mapping hi)

theorem Coherent.not_isFree_iff (h : r.Coherent) : ¬r.IsFree name ↔ r.Lists name := by
  rw [h.isFree_iff]
  simp [Lists]

/-! ## Grants -/

/-- What may be granted to an owner: a free alias, or the primary one of a command of its
own. -/
def Grants (r : Registry) (owner : String) : Grant → Prop
  | .free name => IsAlias name ∧ r.IsFree name
  | .merge name index => IsAlias name ∧ ∃ mapping, r.mappings[index]? = some mapping ∧
      mapping.owner = owner ∧ mapping.primary = name

theorem grants_of_grant? (hname : IsAlias name) (h : r.grant? owner name = some grant) :
    r.Grants owner grant ∧ grant.name = name := by
  simp only [grant?] at h
  split at h
  · next hnone =>
    obtain rfl := Option.some.inj h
    exact ⟨⟨hname, hnone⟩, rfl⟩
  · next index hsome =>
    obtain ⟨mapping, hmapping, h⟩ := Option.bind_eq_some_iff.1 h
    split at h
    · next howner =>
      obtain rfl := Option.some.inj h
      exact ⟨⟨hname, mapping, hmapping, howner⟩, rfl⟩
    · simp at h

/-- A primary alias is granted as it is, or with the owner in front if it is not. -/
theorem resolvePrimary_eq_ok_iff : r.resolvePrimary config owner name = .ok grant ↔
    ∃ kept, normalizeAlias name = .ok kept ∧ (r.grant? owner kept = some grant ∨
      r.grant? owner kept = none ∧ ∃ spaced,
        normalizeAlias (config.namespaced owner kept) = .ok spaced ∧
          r.grant? owner spaced = some grant) := by
  simp only [resolvePrimary, bind, Except.bind, pure, Except.pure, throw, throwThe,
    MonadExceptOf.throw]
  cases normalizeAlias name with
  | error error => simp
  | ok kept =>
    simp only [Except.ok.injEq, exists_eq_left']
    cases r.grant? owner kept with
    | some other => simp
    | none =>
      cases normalizeAlias (config.namespaced owner kept) with
      | error error => simp
      | ok spaced => cases hgrant : r.grant? owner spaced <;> simp [hgrant]

theorem resolvePrimary_grants (h : r.resolvePrimary config owner name = .ok grant) :
    r.Grants owner grant := by
  obtain ⟨kept, hkept, hgrant | ⟨-, spaced, hspaced, hgrant⟩⟩ := resolvePrimary_eq_ok_iff.1 h
  · exact (grants_of_grant? (isAlias_of_normalizeAlias hkept) hgrant).1
  · exact (grants_of_grant? (isAlias_of_normalizeAlias hspaced) hgrant).1

theorem free?_eq_some_iff {found : String} (hname : IsAlias name) :
    r.free? name = some found ↔ r.IsFree name ∧ name = found := by
  have hcontains : r.contains name = false ↔ r.IsFree name := by
    rw [contains, hname.lower, NameMap.contains_eq_false_iff, IsFree]
  rw [free?, ← hcontains]
  split <;> simp [*]

/-- A secondary alias is granted as it is, or with the owner in front if it is taken. -/
theorem resolveSecondary_eq_some_iff {found : String} :
    r.resolveSecondary config owner name = some found ↔
      ∃ kept, normalizeAlias name = .ok kept ∧ (r.IsFree kept ∧ kept = found ∨
        ¬r.IsFree kept ∧ normalizeAlias (config.namespaced owner kept) = .ok found ∧
          r.IsFree found) := by
  simp only [resolveSecondary, Option.bind_eq_bind]
  cases hname : normalizeAlias name with
  | error error => simp [Except.toOption]
  | ok kept =>
    have hkept := isAlias_of_normalizeAlias hname
    simp only [Except.toOption, Option.bind_some, Except.ok.injEq, exists_eq_left']
    by_cases hfree : r.IsFree kept
    · rw [(free?_eq_some_iff hkept).2 ⟨hfree, rfl⟩]
      simp [hfree]
    · have hnone : r.free? kept = none := by
        rw [Option.eq_none_iff_forall_ne_some]
        exact fun other hother => hfree ((free?_eq_some_iff hkept).1 hother).1
      rw [hnone]
      cases hspaced : normalizeAlias (config.namespaced owner kept) with
      | error error => simp [hfree]
      | ok spaced =>
        simp only [Option.bind_some, free?_eq_some_iff (isAlias_of_normalizeAlias hspaced), hfree,
          Except.ok.injEq]
        constructor
        · rintro ⟨hfree', rfl⟩
          exact .inr ⟨not_false, rfl, hfree'⟩
        · rintro (⟨⟨⟩, -⟩ | ⟨-, rfl, hfree'⟩)
          exact ⟨hfree', rfl⟩

theorem resolveSecondary_fresh {found : String}
    (h : r.resolveSecondary config owner name = some found) : IsAlias found ∧ r.IsFree found := by
  obtain ⟨kept, hkept, ⟨hfree, rfl⟩ | ⟨-, hspaced, hfree⟩⟩ := resolveSecondary_eq_some_iff.1 h
  · exact ⟨isAlias_of_normalizeAlias hkept, hfree⟩
  · exact ⟨isAlias_of_normalizeAlias hspaced, hfree⟩

/-! ## Recording -/

theorem Coherent.describe (h : r.Coherent) (index : Nat) (description : Description) :
    (r.describe index description).Coherent := by
  have hback : ∀ (i : Nat) (mapping : Mapping),
      (r.describe index description).mappings[i]? = some mapping → ∃ old,
        r.mappings[i]? = some old ∧ mapping.aliases = old.aliases ∧
          mapping.primary = old.primary := by
    intro i mapping hi
    simp only [Registry.describe, List.getElem?_modify, Option.map_eq_map,
      Option.map_eq_some_iff] at hi
    obtain ⟨old, hold, rfl⟩ := hi
    refine ⟨old, hold, ?_⟩
    split <;> exact ⟨rfl, rfl⟩
  refine ⟨fun name i => ?_, fun i mapping hi => ?_, fun i mapping hi => ?_, h.normal⟩
  · rw [show (r.describe index description).indices = r.indices from rfl, h.leads]
    constructor
    · rintro ⟨mapping, hi, hmem⟩
      simp only [Registry.describe, List.getElem?_modify, Option.map_eq_map, hi, Option.map_some,
        Option.some.injEq, exists_eq_left']
      split <;> exact hmem
    · rintro ⟨mapping, hi, hmem⟩
      obtain ⟨old, hold, haliases, -⟩ := hback i mapping hi
      exact ⟨old, hold, haliases ▸ hmem⟩
  · obtain ⟨old, hold, haliases, hprimary⟩ := hback i mapping hi
    rw [haliases, hprimary, h.primary i old hold]
  · obtain ⟨old, hold, haliases, -⟩ := hback i mapping hi
    rw [haliases]
    exact h.nodup i old hold

/-- One command, which is new or was there, lists one free name more. -/
theorem Coherent.list_more {r' : Registry} {before : List String} {new : Mapping} (h : r.Coherent)
    (hname : IsAlias name) (hfree : r.IsFree name)
    (hindices : r'.indices = r.indices.insert name index)
    (hmappings : ∀ i, r'.mappings[i]? = if i = index then some new else r.mappings[i]?)
    (hbefore : (r.mappings[index]?).elim [] Mapping.aliases = before)
    (haliases : new.aliases = before ++ [name])
    (hprimary : new.aliases.head? = some new.primary) : r'.Coherent := by
  have hnew := h.isFree_iff.1 hfree
  have hold : ∀ other, other ∈ before ↔ r.indices.get? other = some index := by
    intro other
    rw [h.leads, ← hbefore]
    cases r.mappings[index]? <;> simp
  have hnodup : before.Nodup := by
    rw [← hbefore]
    cases hi : r.mappings[index]? with
    | none => exact List.nodup_nil
    | some mapping => exact h.nodup index mapping hi
  refine ⟨fun other i => ?_, fun i mapping hi => ?_, fun i mapping hi => ?_,
    fun other i hi => ?_⟩
  · rw [hindices, NameMap.get?_insert, hmappings]
    by_cases hi : i = index
    · subst hi
      by_cases hother : other = name
      · simp [hother, haliases]
      · simp [hother, haliases, hold]
    · by_cases hother : other = name
      · subst hother
        simp only [if_true, Option.some.injEq, Ne.symm hi, hi, if_false, false_iff]
        rintro ⟨mapping, hmapping, hmem⟩
        exact hnew i mapping hmapping hmem
      · rw [if_neg hother, if_neg hi, h.leads]
  · rw [hmappings] at hi
    split at hi
    · exact Option.some.inj hi ▸ hprimary
    · exact h.primary i mapping hi
  · rw [hmappings] at hi
    split at hi
    · rw [← Option.some.inj hi, haliases]
      refine List.nodup_append.2 ⟨hnodup, by simp, ?_⟩
      intro a ha b hb hab
      obtain rfl : b = name := by simpa using hb
      rw [hab, hold, hfree] at ha
      simp at ha
    · exact h.nodup i mapping hi
  · rw [hindices, NameMap.get?_insert] at hi
    split at hi
    · next hother => exact hother ▸ hname
    · exact h.normal other i hi

/-- A free alias is listed last. -/
theorem mappings_addAlias (hfree : r.IsFree name) {old : Mapping}
    (hold : r.mappings[index]? = some old) (i : Nat) :
    (r.addAlias index name).mappings[i]? =
      if i = index then some { old with aliases := old.aliases ++ [name] }
      else r.mappings[i]? := by
  have hcontains : r.indices.contains name = false := NameMap.contains_eq_false_iff.2 hfree
  simp only [Registry.addAlias, hcontains, Bool.false_eq_true, if_false, List.getElem?_modify]
  by_cases hi : i = index
  · simp [hi, hold]
  · simp [hi, Ne.symm hi]

theorem indices_addAlias (hfree : r.IsFree name) :
    (r.addAlias index name).indices = r.indices.insert name index := by
  have hcontains : r.indices.contains name = false := NameMap.contains_eq_false_iff.2 hfree
  simp [Registry.addAlias, hcontains]

/-- A free alias can be added to a command. -/
theorem Coherent.addAlias (h : r.Coherent) (hname : IsAlias name) (hfree : r.IsFree name)
    {old : Mapping} (hold : r.mappings[index]? = some old) : (r.addAlias index name).Coherent := by
  refine h.list_more hname hfree (indices_addAlias hfree) (mappings_addAlias hfree hold)
    (congrArg (·.elim [] Mapping.aliases) hold) rfl ?_
  simp [List.head?_append, h.primary index old hold]

/-- Adding free aliases to a command appends them to its own and leaves the other commands
alone. -/
theorem Coherent.foldl_addAlias {added : List String} (h : r.Coherent)
    (hadded : ∀ name ∈ added, IsAlias name ∧ r.IsFree name) (hnodup : added.Nodup)
    {old : Mapping} (hold : r.mappings[index]? = some old) :
    (added.foldl (Registry.addAlias index) r).Coherent ∧
      ∀ i, (added.foldl (Registry.addAlias index) r).mappings[i]? =
        if i = index then some { old with aliases := old.aliases ++ added }
        else r.mappings[i]? := by
  induction added generalizing r old with
  | nil =>
    refine ⟨h, fun i => ?_⟩
    split
    · next hi => simp [hi, hold]
    · rfl
  | cons name rest ih =>
    obtain ⟨hname, hfree⟩ := hadded name (by simp)
    obtain ⟨hnotin, hrest⟩ := List.nodup_cons.1 hnodup
    have hstill : ∀ other ∈ rest, IsAlias other ∧ (r.addAlias index name).IsFree other := by
      intro other hother
      obtain ⟨hother', hfree'⟩ := hadded other (by simp [hother])
      have hne : other ≠ name := fun hne => hnotin (hne ▸ hother)
      refine ⟨hother', ?_⟩
      rw [IsFree, indices_addAlias hfree, NameMap.get?_insert, if_neg hne]
      exact hfree'
    have hindex := mappings_addAlias hfree hold index
    rw [if_pos rfl] at hindex
    obtain ⟨hcoherent, hall⟩ := ih (h.addAlias hname hfree hold) hstill hrest hindex
    refine ⟨hcoherent, fun i => ?_⟩
    rw [List.foldl_cons, hall, mappings_addAlias hfree hold]
    split <;> simp

/-- The command with an index to which a grant leads: one that was there, or the one it
opens. -/
def StartsAt (r : Registry) (owner : String) (node index : Nat) (old : Mapping) : Grant → Prop
  | .free name => r.mappings[index]? = none ∧ old = (Grant.free name).opening owner node
  | .merge _ known => known = index ∧ r.mappings[index]? = some old

/-- What a registry becomes when a grant with further aliases is recorded: the command that
was there, or was opened, has them in addition, and the other commands stay as they are. -/
structure Records (r : Registry) (grant : Grant) (owner : String) (node : Nat)
    (added : List String) (r' : Registry) (index : Nat) (old new : Mapping) : Prop where
  coherent : r'.Coherent
  starts : r.StartsAt owner node index old grant
  mappings : ∀ i, r'.mappings[i]? = if i = index then some new else r.mappings[i]?
  aliases : new.aliases = old.aliases ++ added
  owner_eq : new.owner = old.owner
  primary_eq : new.primary = old.primary
  node_eq : new.node = old.node

/-- The command that a free alias opens comes last. -/
theorem mappings_enroll_free (r : Registry) (name owner : String) (node i : Nat) :
    (r.enroll (.free name) owner node).1.mappings[i]? =
      if i = r.size then some ((Grant.free name).opening owner node) else r.mappings[i]? := by
  by_cases hi : i = r.size
  · rw [enroll, if_pos hi, hi]
    exact List.getElem?_concat_length
  · rw [enroll, if_neg hi, List.getElem?_append]
    split
    · rfl
    · next hge =>
      have hone : i - r.mappings.length ≠ 0 := by
        simp only [Registry.size] at hi
        omega
      rw [List.getElem?_eq_none (Nat.not_lt.1 hge), List.getElem?_singleton, if_neg hone]

/-- A free alias can open a command. -/
theorem Coherent.enroll_free (h : r.Coherent) (hname : IsAlias name) (hfree : r.IsFree name)
    (owner : String) (node : Nat) : (r.enroll (.free name) owner node).1.Coherent := by
  have hnone : r.mappings[r.size]? = none := List.getElem?_eq_none (Nat.le_refl _)
  exact h.list_more hname hfree rfl (mappings_enroll_free r name owner node)
    (congrArg (·.elim [] Mapping.aliases) hnone) rfl rfl

/-- A grant is enrolled as the command to which it leads; names other than its own stay
free. -/
theorem Coherent.enroll_starts (h : r.Coherent) (hgrant : r.Grants owner grant) (node : Nat) :
    ∃ old, r.StartsAt owner node (r.enroll grant owner node).2 old grant ∧
      (r.enroll grant owner node).1.Coherent ∧
      (∀ i, (r.enroll grant owner node).1.mappings[i]? =
        if i = (r.enroll grant owner node).2 then some old else r.mappings[i]?) ∧
      ∀ name, r.IsFree name → name ≠ grant.name →
        (r.enroll grant owner node).1.IsFree name := by
  cases grant with
  | free name =>
    obtain ⟨hname, hfree⟩ := hgrant
    refine ⟨(Grant.free name).opening owner node, ⟨List.getElem?_eq_none (Nat.le_refl _), rfl⟩,
      h.enroll_free hname hfree owner node, mappings_enroll_free r name owner node,
      fun other hother hne => ?_⟩
    have hne' : other ≠ name := hne
    rw [IsFree, enroll, NameMap.get?_insert, if_neg hne']
    exact hother
  | merge name index =>
    obtain ⟨-, mapping, hmapping, -⟩ := hgrant
    refine ⟨mapping, ⟨rfl, hmapping⟩, h, fun i => ?_, fun other hother _ => hother⟩
    rw [enroll]
    split
    · next hi => rw [hi]; exact hmapping
    · rfl

/-- Recording what was granted, with aliases that are free, keeps a registry coherent. -/
theorem Coherent.record_records {added : List String} (h : r.Coherent)
    (hgrant : r.Grants owner grant)
    (hadded : ∀ name ∈ added, IsAlias name ∧ r.IsFree name ∧ name ≠ grant.name)
    (hnodup : added.Nodup) (node : Nat) (description : Description) :
    ∃ index old, r.Records grant owner node added
      (r.record grant owner node added description).1 index old
      (r.record grant owner node added description).2 ∧
    (r.record grant owner node added description).2.description =
      old.description.amend description := by
  obtain ⟨old, hstarts, hcoherent, hmappings, hfree⟩ := h.enroll_starts hgrant node
  have hindex : (r.enroll grant owner node).1.mappings[(r.enroll grant owner node).2]? =
      some old := by
    rw [hmappings, if_pos rfl]
  obtain ⟨hfolded, hall⟩ := hcoherent.foldl_addAlias
    (fun name hname => ⟨(hadded name hname).1, hfree name (hadded name hname).2.1
      (hadded name hname).2.2⟩) hnodup hindex
  have hrecorded : ∀ i, (r.record grant owner node added description).1.mappings[i]? =
      if i = (r.enroll grant owner node).2 then some { old with
        aliases := old.aliases ++ added
        description := old.description.amend description }
      else r.mappings[i]? := by
    intro i
    simp only [record, Registry.describe, List.getElem?_modify, hall, hmappings]
    by_cases hi : i = (r.enroll grant owner node).2
    · simp [hi]
    · simp [hi, Ne.symm hi]
  have hanswer : (r.record grant owner node added description).2 = { old with
      aliases := old.aliases ++ added
      description := old.description.amend description } := by
    have hself := hrecorded (r.enroll grant owner node).2
    rw [if_pos rfl] at hself
    simp only [record] at hself ⊢
    rw [hself, Option.getD_some]
  rw [hanswer]
  exact ⟨(r.enroll grant owner node).2, old,
    ⟨hfolded.describe _ description, hstarts, hrecorded, rfl, rfl, rfl, rfl⟩, rfl⟩

/-- The command to which a grant leads has the granted alias as its primary one. -/
theorem StartsAt.primary_eq {node : Nat} {old : Mapping} (hgrant : r.Grants owner grant)
    (h : r.StartsAt owner node index old grant) : old.primary = grant.name := by
  cases grant with
  | free name => rw [h.2]; rfl
  | merge name known =>
    obtain ⟨-, mapping, hmapping, -, hprimary⟩ := hgrant
    obtain ⟨rfl, hold⟩ := h
    rwa [Option.some.inj (hmapping.symm.trans hold)] at hprimary

/-- It belongs to the owner to whom the grant is made. -/
theorem StartsAt.owner_eq {node : Nat} {old : Mapping} (hgrant : r.Grants owner grant)
    (h : r.StartsAt owner node index old grant) : old.owner = owner := by
  cases grant with
  | free name => rw [h.2]; rfl
  | merge name known =>
    obtain ⟨-, mapping, hmapping, howner, -⟩ := hgrant
    obtain ⟨rfl, hold⟩ := h
    rwa [Option.some.inj (hmapping.symm.trans hold)] at howner

/-- The other commands do not list the granted alias. -/
theorem Coherent.not_mem_of_ne (h : r.Coherent) {node : Nat} {old mapping : Mapping}
    (hgrant : r.Grants owner grant) (hstarts : r.StartsAt owner node index old grant)
    (hi : r.mappings[i]? = some mapping) (hne : i ≠ index) : grant.name ∉ mapping.aliases := by
  intro hmem
  cases grant with
  | free name => exact h.isFree_iff.1 hgrant.2 i mapping hi hmem
  | merge name known =>
    have hprimary := hstarts.primary_eq hgrant
    obtain ⟨rfl, hold⟩ := hstarts
    exact hne (h.index_eq hi hold hmem (hprimary ▸ h.primary_mem hold))

/-- The listed names afterwards are those from before, the granted one and the added ones. -/
theorem Records.lists_iff {node : Nat} {added : List String} {r' : Registry} {old new : Mapping}
    (h : r.Records grant owner node added r' index old new) (hcoherent : r.Coherent)
    (hgrant : r.Grants owner grant) :
    r'.Lists name ↔ r.Lists name ∨ name = grant.name ∨ name ∈ added := by
  have hprimary := h.starts.primary_eq hgrant
  have hstarts := h.starts
  constructor
  · rintro ⟨i, mapping, hi, hmem⟩
    rw [h.mappings] at hi
    split at hi
    · obtain rfl := Option.some.inj hi
      rw [h.aliases, List.mem_append] at hmem
      obtain hmem | hmem := hmem
      · cases grant with
        | free _ =>
          rw [hstarts.2] at hmem
          exact .inr (.inl (List.mem_singleton.1 hmem))
        | merge _ known => exact .inl ⟨index, old, hstarts.2, hmem⟩
      · exact .inr (.inr hmem)
    · exact .inl ⟨i, mapping, hi, hmem⟩
  · have hnew : ∀ {name}, name ∈ old.aliases ∨ name ∈ added → r'.Lists name := by
      intro name hname
      refine ⟨index, new, by rw [h.mappings, if_pos rfl], ?_⟩
      rwa [h.aliases, List.mem_append]
    rintro (⟨i, mapping, hi, hmem⟩ | rfl | hmem)
    · by_cases hindex : i = index
      · cases grant with
        | free _ => simp [hindex, hstarts.1] at hi
        | merge _ known =>
          rw [hindex, hstarts.2] at hi
          exact hnew (.inl (Option.some.inj hi ▸ hmem))
      · exact ⟨i, mapping, by rw [h.mappings, if_neg hindex]; exact hi, hmem⟩
    · refine hnew (.inl ?_)
      cases grant with
      | free _ =>
        rw [hstarts.2]
        exact List.mem_singleton_self _
      | merge _ known => exact hprimary ▸ hcoherent.primary_mem hstarts.2
    · exact hnew (.inr hmem)

/-- A command stays with its owner, its primary alias, its node and its aliases. -/
theorem Records.kept {node : Nat} {added : List String} {r' : Registry} {old new mapping : Mapping}
    (h : r.Records grant owner node added r' index old new)
    (hi : r.mappings[i]? = some mapping) :
    ∃ now, r'.mappings[i]? = some now ∧ now.owner = mapping.owner ∧
      now.primary = mapping.primary ∧ now.node = mapping.node ∧
      ∀ name ∈ mapping.aliases, name ∈ now.aliases := by
  by_cases hindex : i = index
  · subst hindex
    have hstarts := h.starts
    cases grant with
    | free granted => simp [hstarts.1] at hi
    | merge granted known =>
      obtain rfl : old = mapping := Option.some.inj (hstarts.2.symm.trans hi)
      refine ⟨new, by rw [h.mappings, if_pos rfl], h.owner_eq, h.primary_eq, h.node_eq,
        fun name hname => ?_⟩
      rw [h.aliases]
      exact List.mem_append_left _ hname
  · exact ⟨mapping, by rw [h.mappings, if_neg hindex]; exact hi, rfl, rfl, rfl, fun _ => id⟩

/-! ## Asking again -/

section
variable {node : Nat} {added : List String} {r' : Registry} {old new : Mapping}
  (h : r.Records grant owner node added r' index old new)
include h

/-- What was granted is the owner's own when it is asked for again. -/
theorem Records.grant?_name (hgrant : r.Grants owner grant) :
    r'.grant? owner grant.name = some (.merge grant.name index) := by
  have hnew : r'.mappings[index]? = some new := by rw [h.mappings, if_pos rfl]
  have hprimary := h.primary_eq.trans (h.starts.primary_eq hgrant)
  have howner := h.owner_eq.trans (h.starts.owner_eq hgrant)
  have hleads : r'.indices.get? grant.name = some index :=
    (h.coherent.leads _ index).2 ⟨new, hnew, hprimary ▸ h.coherent.primary_mem hnew⟩
  simp [grant?, hleads, hnew, hprimary, howner]

/-- What was not granted to the owner is not granted later. -/
theorem Records.grant?_eq_none (hcoherent : r.Coherent) (hnone : r.grant? owner name = none) :
    r'.grant? owner name = none := by
  cases hget : r.indices.get? name with
  | none => simp [grant?, hget] at hnone
  | some i =>
    obtain ⟨mapping, hi, hmem⟩ := (hcoherent.leads name i).1 hget
    obtain ⟨now, hnow, howner, hprimary, -, haliases⟩ := h.kept hi
    have hleads := (h.coherent.leads name i).2 ⟨now, hnow, haliases name hmem⟩
    simpa [grant?, hget, hi, hleads, hnow, howner, hprimary] using hnone

/-- An owner that asks for a primary alias again gets the command that it has. -/
theorem Records.resolvePrimary_again (hcoherent : r.Coherent)
    (hask : r.resolvePrimary config owner name = .ok grant) :
    r'.resolvePrimary config owner name = .ok (.merge grant.name index) := by
  have howned := h.grant?_name (resolvePrimary_grants hask)
  obtain ⟨kept, hkept, hgranted | ⟨hnone, spaced, hspaced, hgranted⟩⟩ :=
    resolvePrimary_eq_ok_iff.1 hask
  · obtain ⟨-, rfl⟩ := grants_of_grant? (isAlias_of_normalizeAlias hkept) hgranted
    exact resolvePrimary_eq_ok_iff.2 ⟨_, hkept, .inl howned⟩
  · obtain ⟨-, rfl⟩ := grants_of_grant? (isAlias_of_normalizeAlias hspaced) hgranted
    exact resolvePrimary_eq_ok_iff.2 ⟨kept, hkept,
      .inr ⟨h.grant?_eq_none hcoherent hnone, _, hspaced, howned⟩⟩

end

end Registry
end Dispatch
