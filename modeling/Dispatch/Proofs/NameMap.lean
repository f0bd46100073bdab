import Dispatch.NameMap
/-!
# What a map holds

A name that is bound anew is found with its new value, and every other name as before
(`get?_insert`). Since the entries of a map are in ascending order, adding them one after the
other to the empty map makes the same map again (`ofList_entries`).
-/
namespace Dispatch.NameMap

variable {β : Type}

theorem ext {map map' : NameMap β} (h : map.entries = map'.entries) : map = map' := by
  cases map
  cases map'
  congr

/-! ## Finding names -/

@[simp] theorem get?_empty (name : String) : (empty : NameMap β).get? name = none := rfl

theorem lookup_insertEntry (name other : String) (value : β) (entries : List (String × β)) :
    (insertEntry name value entries).lookup other =
      if other = name then some value else entries.lookup other := by
  induction entries with
  | nil =>
    by_cases h : other = name
    · simp [insertEntry, h]
    · simp [insertEntry, List.lookup_cons, h, beq_eq_false_iff_ne.2 h]
  | cons head rest ih =>
    obtain ⟨first, old⟩ := head
    simp only [insertEntry]
    split
    · by_cases h : other = name
      · simp [h]
      · simp [List.lookup_cons, h, beq_eq_false_iff_ne.2 h]
    · split
      · next hname =>
        subst hname
        by_cases h : other = name
        · simp [h]
        · simp [List.lookup_cons, h, beq_eq_false_iff_ne.2 h]
      · next hname =>
        rw [List.lookup_cons, List.lookup_cons, ih]
        by_cases h : other = first
        · have hne : ¬first = name := fun h' => hname h'.symm
          simp [h, hne]
        · rw [beq_eq_false_iff_ne.2 h]

theorem get?_insert (map : NameMap β) (name other : String) (value : β) :
    (map.insert name value).get? other = if other = name then some value else map.get? other :=
  lookup_insertEntry name other value map.entries

theorem contains_eq_false_iff {map : NameMap β} {name : String} :
    map.contains name = false ↔ map.get? name = none := by
  simp [contains]

@[simp] theorem contains_empty (name : String) : (empty : NameMap β).contains name = false := rfl

theorem contains_insert (map : NameMap β) (name other : String) (value : β) :
    (map.insert name value).contains other = true ↔ other = name ∨ map.contains other = true := by
  rw [contains, get?_insert]
  split
  · next h => simp [h]
  · next h => simp [h, contains]

/-! ## Adding names in order -/

/-- A name after all others is added at the end. -/
theorem insertEntry_of_forall_lt {name : String} (value : β) {entries : List (String × β)}
    (h : ∀ e ∈ entries, e.1 < name) :
    insertEntry name value entries = entries ++ [(name, value)] := by
  induction entries with
  | nil => rfl
  | cons head rest ih =>
    obtain ⟨other, old⟩ := head
    have hlt : other < name := h _ (List.mem_cons_self ..)
    have hrest := ih fun e he => h e (List.mem_cons_of_mem _ he)
    have hne : name ≠ other := fun heq => String.lt_irrefl other (heq ▸ hlt)
    rw [insertEntry, if_neg (String.lt_asymm hlt), if_neg hne, hrest]
    rfl

/-- Entries that come in ascending order after those of a map are added behind them. -/
theorem entries_foldl_insert (map : NameMap β) (more : List (String × β))
    (ascending : (map.entries ++ more).Pairwise (·.1 < ·.1)) :
    (more.foldl (fun made e => made.insert e.1 e.2) map).entries = map.entries ++ more := by
  induction more generalizing map with
  | nil => simp
  | cons e more ih =>
    have hbefore : ∀ d ∈ map.entries, d.1 < e.1 := fun d hd =>
      (List.pairwise_append.1 ascending).2.2 d hd e (List.mem_cons_self ..)
    have hinsert : (map.insert e.1 e.2).entries = map.entries ++ [e] :=
      insertEntry_of_forall_lt e.2 hbefore
    rw [List.foldl_cons, ih, hinsert]
    · simp
    · simpa [hinsert] using ascending

/-- A map is what its entries make one after the other. -/
theorem ofList_entries (map : NameMap β) : ofList map.entries = map :=
  ext (entries_foldl_insert empty map.entries map.ascending)

end Dispatch.NameMap
