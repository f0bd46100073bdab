import Dispatch.Argument.Standard
import Dispatch.Proofs.Tree.Alike
import Dispatch.Proofs.Tree.Arena
import Dispatch.Proofs.Tree.Union
/-!
# Paths and the nodes at their ends

The path of a node is found by searching the tree from the root down for its number; the node
of a path is found by going down from name to name. The search goes through all children of a
node, and each step down takes the first child of a name, so the two agree where siblings have
different names and a node has one parent. They are inverse on the whole tree, since every
node but the root is some node's child (`path_findPath`).
-/
namespace Dispatch
variable {S E M : Type}

namespace Tree
variable {t : Tree S E M} {id c target : Nat} {path : List String}

theorem findPath?_eq (t : Tree S E M) (path : List String) :
    t.findPath? path = t.below? root path := rfl

/-- The search of one node goes through its children. -/
theorem pathFrom?_eq (t : Tree S E M) (target id : Nat) :
    t.pathFrom? target id = if id = target then some []
      else (t.childIds id).findSome? fun c => (t.pathFrom? target c).map (t.nameOf c :: ·) := by
  rw [pathFrom?, ← map_val_childrenOf, List.findSome?_map]
  rfl

theorem pathFrom?_self (t : Tree S E M) (id : Nat) : t.pathFrom? id id = some [] := by
  rw [pathFrom?_eq, if_pos rfl]

/-- What is found below a node other than the target is found below one of its children. -/
theorem pathFrom?_eq_some (hne : id ≠ target) (h : t.pathFrom? target id = some path) :
    ∃ c ∈ t.childIds id, ∃ rest, t.pathFrom? target c = some rest ∧
      path = t.nameOf c :: rest := by
  rw [pathFrom?_eq, if_neg hne] at h
  obtain ⟨c, hc, hfound⟩ := List.exists_of_findSome?_eq_some h
  obtain ⟨rest, hrest, rfl⟩ := Option.map_eq_some_iff.1 hfound
  exact ⟨c, hc, rest, hrest, rfl⟩

theorem isSome_pathFrom?_of_child (hc : c ∈ t.childIds id)
    (h : (t.pathFrom? target c).isSome) : (t.pathFrom? target id).isSome := by
  rw [pathFrom?_eq]
  split
  · rfl
  · rw [List.findSome?_isSome_iff]
    exact ⟨c, hc, by rwa [Option.isSome_map]⟩

/-- The search finds what names lead to. -/
theorem isSome_pathFrom? (hpath : t.below? id path = some target) :
    (t.pathFrom? target id).isSome := by
  induction path generalizing id with
  | nil =>
    rw [Option.some.inj hpath, pathFrom?_self, Option.isSome_some]
  | cons name rest ih =>
    rw [below?_cons] at hpath
    obtain ⟨c, hc, hrest⟩ := Option.bind_eq_some_iff.1 hpath
    exact isSome_pathFrom?_of_child (findChild?_eq_some hc).1 (ih hrest)

namespace Arranged

/-- The child of a child's name is this child. -/
theorem findChild?_nameOf (h : t.Arranged) (hc : c ∈ t.childIds id) :
    t.findChild? id (t.nameOf c) = some c := by
  obtain ⟨node, hnode⟩ := exists_node? (lt_of_mem_childIds hc).2
  have hname : t.nameOf c = node.name := by rw [nameOf, hnode, Option.elim_some]
  obtain ⟨x, hx⟩ := findChild?_isSome hc hnode
  obtain ⟨hmem, found, hfound, hfoundName⟩ := findChild?_eq_some hx
  have hsame : t.nameOf x = t.nameOf c := by
    rw [hname, nameOf, hfound, Option.elim_some, hfoundName]
  rw [hname, hx, List.inj_on_of_nodup_map (h.names id) hmem hc hsame]

/-- The names that the search finds lead to the target. -/
theorem below?_of_pathFrom? (h : t.Arranged) (hpath : t.pathFrom? target id = some path) :
    t.below? id path = some target := by
  induction path generalizing id with
  | nil =>
    by_cases hid : id = target
    · rw [hid]
      rfl
    · obtain ⟨c, -, rest, -, hcons⟩ := pathFrom?_eq_some hid hpath
      simp at hcons
  | cons name rest ih =>
    have hid : id ≠ target := by
      rintro rfl
      simp [pathFrom?_self] at hpath
    obtain ⟨c, hc, rest', hrest, hcons⟩ := pathFrom?_eq_some hid hpath
    obtain ⟨rfl, rfl⟩ := List.cons.inj hcons
    rw [below?_cons_eq (h.findChild?_nameOf hc)]
    exact ih hrest

/-- The search finds the names, and no others, that lead to its target. -/
theorem pathFrom?_eq_some_iff (h : t.Arranged) :
    t.pathFrom? target id = some path ↔ t.below? id path = some target := by
  constructor
  · exact h.below?_of_pathFrom?
  · intro hpath
    obtain ⟨found, hfound⟩ := Option.isSome_iff_exists.1 (isSome_pathFrom? hpath)
    rw [hfound, h.unique.eq_of_below? (h.below?_of_pathFrom? hfound) hpath]

/-- Names lead from the root to every node. -/
theorem exists_below?_root (h : t.Arranged) (hid : id < t.size) :
    ∃ path, t.below? root path = some id := by
  induction id using Nat.strongRecOn with
  | ind id ih =>
    by_cases hroot : id = root
    · exact ⟨[], by rw [hroot]; rfl⟩
    · obtain ⟨p, hp⟩ := h.parent id hid hroot
      have hlt := (lt_of_mem_childIds hp).1
      obtain ⟨path, hpath⟩ := ih p hlt (Nat.lt_trans hlt hid)
      refine ⟨path ++ [t.nameOf id], ?_⟩
      rw [below?_concat, hpath, Option.bind_some, h.findChild?_nameOf hp]

end Arranged

/-- Whatever calls led to a tree, each of its nodes is found at the end of its path, and the
path of what is found at the end of some names is these names. -/
theorem path_findPath (grown : t.Grown) :
    (∀ id, id < t.size → t.findPath? (t.path id) = some id) ∧
      ∀ path id, t.findPath? path = some id → t.path id = path := by
  have harranged := grown.arranged
  constructor
  · intro id hid
    obtain ⟨path, hpath⟩ := harranged.exists_below?_root hid
    rw [findPath?_eq, Tree.path, harranged.pathFrom?_eq_some_iff.2 hpath, Option.getD_some]
    exact hpath
  · intro path id hpath
    rw [findPath?_eq] at hpath
    rw [Tree.path, harranged.pathFrom?_eq_some_iff.2 hpath, Option.getD_some]

/-- `set` with `x` below it, `get`, an argument below `set` with `a` and, in a later call,
something below `a`, and `x` pointed back at `set`. -/
def settings : List (Change Unit Nat Unit) :=
  [.register ((Sprout.literal "set").child (.literal "x")), .register (.literal "get"),
    .addChild 1 ((Sprout.argument "y" StandardParser.word.toParser).child (.literal "a")),
    .addChild 4 ((Sprout.literal "a").child (.literal "x")), .setRedirect 2 1]

/-- Of the two nodes with the name `x`, each has its own path. -/
theorem path_findPath_settings : (empty.afterAll settings).Grown ∧
    (empty.afterAll settings).size = 7 ∧
    (empty.afterAll settings).path 2 = ["set", "x"] ∧
    (empty.afterAll settings).path 6 = ["set", "y", "a", "x"] ∧
    (empty.afterAll settings).findPath? ((empty.afterAll settings).path 4) = some 4 := by
  have grown : (empty.afterAll settings).Grown := ⟨settings, rfl⟩
  obtain ⟨hfind, hpath⟩ := path_findPath grown
  have hsize : (empty.afterAll settings).size = 7 := rfl
  exact ⟨grown, hsize, hpath ["set", "x"] 2 rfl, hpath ["set", "y", "a", "x"] 6 rfl,
    hfind 4 (by rw [hsize]; decide)⟩

end Tree
end Dispatch
