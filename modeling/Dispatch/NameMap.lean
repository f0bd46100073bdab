/-!
# Maps keyed by name

A finite map from names, listed in ascending order of name with every name once. Two maps are
equal when they list the same entries, so equality of maps is equality of what they hold.
-/
namespace Dispatch

/-- The entries with `name` bound to `value`, in order if they were. -/
def insertEntry {β : Type} (name : String) (value : β) : List (String × β) → List (String × β)
  | [] => [(name, value)]
  | (other, old) :: rest =>
    if name < other then (name, value) :: (other, old) :: rest
    else if name = other then (name, value) :: rest
    else (other, old) :: insertEntry name value rest

theorem mem_insertEntry {β : Type} {name : String} {value : β} {entries : List (String × β)}
    {e : String × β} (h : e ∈ insertEntry name value entries) :
    e = (name, value) ∨ e ∈ entries := by
  induction entries with
  | nil => simpa [insertEntry] using h
  | cons head rest ih =>
    obtain ⟨other, old⟩ := head
    simp only [insertEntry] at h
    split at h
    · simpa using h
    · split at h
      · simp only [List.mem_cons] at h ⊢
        exact h.imp_right .inr
      · simp only [List.mem_cons] at h ⊢
        rcases h with h | h
        · exact .inr (.inl h)
        · exact (ih h).imp_right .inr

theorem pairwise_insertEntry {β : Type} (name : String) (value : β) {entries : List (String × β)}
    (h : entries.Pairwise (·.1 < ·.1)) :
    (insertEntry name value entries).Pairwise (·.1 < ·.1) := by
  induction entries with
  | nil => simp [insertEntry]
  | cons head rest ih =>
    obtain ⟨other, old⟩ := head
    rw [List.pairwise_cons] at h
    simp only [insertEntry]
    split
    next lt =>
      refine List.pairwise_cons.2 ⟨fun e he => ?_, List.pairwise_cons.2 h⟩
      rcases List.mem_cons.1 he with rfl | he
      · exact lt
      · exact String.lt_trans lt (h.1 e he)
    next notLt =>
      split
      next eq =>
        subst eq
        exact List.pairwise_cons.2 h
      next ne =>
        refine List.pairwise_cons.2 ⟨fun e he => ?_, ih h.2⟩
        rcases mem_insertEntry he with rfl | he
        · refine Decidable.byContradiction fun gt => ne ?_
          exact String.le_antisymm (String.not_lt.1 gt) (String.not_lt.1 notLt)
        · exact h.1 e he

/-- A finite map from names to `β`. -/
structure NameMap (β : Type) where
  entries : List (String × β)
  ascending : entries.Pairwise (·.1 < ·.1)
  deriving DecidableEq

namespace NameMap
variable {β : Type}

/-- The map that binds nothing. -/
def empty : NameMap β := ⟨[], .nil⟩

instance : Inhabited (NameMap β) := ⟨empty⟩

/-- The map with `name` bound to `value`; an earlier binding of the name is replaced. -/
def insert (map : NameMap β) (name : String) (value : β) : NameMap β :=
  ⟨insertEntry name value map.entries, pairwise_insertEntry name value map.ascending⟩

/-- The map that binds the listed names; of two bindings of one name the later holds. -/
def ofList (entries : List (String × β)) : NameMap β :=
  entries.foldl (fun map (name, value) => map.insert name value) empty

/-- What a name is bound to. -/
def get? (map : NameMap β) (name : String) : Option β := map.entries.lookup name

/-- Whether a name is bound. -/
def contains (map : NameMap β) (name : String) : Bool := (map.get? name).isSome

/-- The bound names in ascending order. -/
def names (map : NameMap β) : List String := map.entries.map (·.1)

/-- Whether nothing is bound. -/
def isEmpty (map : NameMap β) : Bool := map.entries.isEmpty

end NameMap

/-- A finite set of names. -/
abbrev NameSet := NameMap Unit

end Dispatch
