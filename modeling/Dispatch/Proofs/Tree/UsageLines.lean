import Dispatch.Proofs.Tree.Alike
import Dispatch.Proofs.Parse.Additions
import Dispatch.Proofs.Parse.FirstWord
/-!
# The usage lines of trees of tokens

In a tree of literals that are tokens, without redirects (`OfTokens`), the tokens on the way
down to a node spell its usage line (`mem_usageNodes_iff`). A line can be read back in one way
only (`spell_injective`) and siblings have different names, so all lines are different
(`nodup_usageNodes`).
-/
namespace Dispatch
variable {S E M : Type}

/-- A subtree of literals that are tokens, without redirects. -/
inductive Sprout.OfTokens : Sprout S E M → Prop
  | mk {b : Sprout S E M} {text : String} (label : b.label = .literal text) (token : IsToken text)
    (plain : b.redirect = none) (children : ∀ child ∈ b.children, child.OfTokens) : b.OfTokens

theorem Sprout.OfTokens.child {b : Sprout S E M} (h : b.OfTokens) :
    ∀ child ∈ b.children, child.OfTokens := by
  obtain ⟨-, -, -, children⟩ := h
  exact children

/-- A call that adds such a subtree. -/
def Change.AddsTokens (change : Change S E M) : Prop :=
  ∃ parent b, change.addition? = some (parent, b) ∧ b.OfTokens

namespace Tree
variable {t : Tree S E M} {source : S} {parent id x y c : Nat} {b : Sprout S E M}
  {node : Node S E M} {line : String} {words : List String}

/-- All nodes but the root are literals that are tokens, siblings are different ones, nothing
redirects, and the root runs nothing and is open to all. -/
structure OfTokens (t : Tree S E M) : Prop where
  arranged : t.Arranged
  plain : t.IsPlain
  token : ∀ id node, t.node? id = some node → id ≠ root →
    ∃ text, node.label = some (.literal text) ∧ IsToken text
  bare : ∀ node, t.node? root = some node → node.executor = none ∧ node.requirement = none

theorem isUsable_iff : t.isUsable source id = true ↔
    ∃ node, t.node? id = some node ∧ node.canUse source = true := by
  cases hnode : t.node? id <;> simp [isUsable, hnode]

theorem ofTokens_empty : (empty : Tree S E M).OfTokens where
  arranged := arranged_empty
  plain := isPlain_empty
  token := fun id node hnode hne => absurd (eq_root_of_node?_empty hnode).1 hne
  bare := by
    intro node hnode
    rw [(eq_root_of_node?_empty hnode).2]
    exact ⟨rfl, rfl⟩

theorem OfTokens.place (h : t.OfTokens) (hlt : parent < t.size) {text : String}
    (label : b.label = .literal text) (token : IsToken text) (plain : b.redirect = none) :
    (t.place parent b).1.OfTokens := by
  refine ⟨h.arranged.place hlt b, h.plain.place plain, ?_, ?_⟩
  · intro id node hnode hne
    obtain ⟨x, -, hplace⟩ | ⟨-, hplace⟩ := t.place_cases parent b
    · rw [hplace, node?_update] at hnode
      split at hnode
      · obtain ⟨old, hold, rfl⟩ := Option.map_eq_some_iff.1 hnode
        rw [Node.withChildren_label, Sprout.mergeInto_label]
        exact h.token id old hold hne
      · exact h.token id node hnode hne
    · rw [hplace] at hnode
      obtain ⟨-, rfl⟩ | ⟨-, old, children, hold, rfl⟩ := exists_of_node?_addNode hnode
      · exact ⟨text, congrArg some label, token⟩
      · exact h.token id old hold hne
  · intro node hnode
    obtain ⟨x, hx, hplace⟩ | ⟨-, hplace⟩ := t.place_cases parent b
    · have hne : root ≠ x := Nat.ne_of_lt (root_lt_of_mem_childIds (findChild?_eq_some hx).1)
      rw [hplace, node?_update, if_neg hne] at hnode
      exact h.bare node hnode
    · rw [hplace] at hnode
      obtain ⟨hsize, -⟩ | ⟨-, old, children, hold, rfl⟩ := exists_of_node?_addNode hnode
      · exact absurd hsize (Nat.ne_of_lt t.hasRoot)
      · exact h.bare old hold

theorem OfTokens.after (h : t.OfTokens) {change : Change S E M} (adds : change.AddsTokens) :
    (t.after change).OfTokens := by
  obtain ⟨parent, b, hadds, hb⟩ := adds
  rw [Tree.after]
  split
  · next t' henact =>
    obtain ⟨parent', b', hadds', hlt, -, rfl⟩ | ⟨id, alter, hnone, -, -⟩ := enact_cases henact
    · obtain ⟨rfl, rfl⟩ := Prod.mk.inj (Option.some.inj (hadds.symm.trans hadds'))
      have hstep : ∀ (t : Tree S E M) (parent : Nat) (b : Sprout S E M), t.OfTokens → True →
          parent < t.size → b.OfTokens → (t.place parent b).1.OfTokens ∧ True := by
        rintro t parent b ht - hlt ⟨label, token, plain, -⟩
        exact ⟨ht.place hlt label token plain, trivial⟩
      exact (graft_induction (T := fun _ => True) (fun b hb => hb.child) hstep b h trivial hlt
        hb).1
    · simp [hnone] at hadds
  · exact h

theorem OfTokens.afterAll (h : t.OfTokens) {changes : List (Change S E M)}
    (adds : ∀ change ∈ changes, change.AddsTokens) : (t.afterAll changes).OfTokens := by
  induction changes generalizing t with
  | nil => exact h
  | cons change rest ih =>
    exact ih (h.after (adds change List.mem_cons_self)) fun other hother =>
      adds other (List.mem_cons_of_mem change hother)

/-! ## Lines and what they are read back as -/

/-- A line that goes on with words. -/
def spell (line : String) (words : List String) : String :=
  words.foldl (fun line word => if line.isEmpty then word else joinUsage line word) line

/-- The characters of words with a separator before each of them. -/
def wordsBehind (words : List String) : List Char :=
  words.flatMap fun word => separator :: word.toList

theorem endsWord_wordsBehind (words : List String) : EndsWord (wordsBehind words) := by
  cases words with
  | nil => simp [EndsWord, wordsBehind]
  | cons word rest => exact endsWord_separator _

theorem toList_spell (hline : line ≠ "") (words : List String) :
    (spell line words).toList = line.toList ++ wordsBehind words := by
  induction words generalizing line with
  | nil => simp [spell, wordsBehind]
  | cons word rest ih =>
    have hjoin : joinUsage line word ≠ "" := by
      intro h
      have := congrArg String.toList h
      simp [joinUsage, hline] at this
    have hstep : spell line (word :: rest) = spell (joinUsage line word) rest := by
      simp [spell, hline]
    rw [hstep, ih hjoin]
    simp [joinUsage, wordsBehind]

theorem toList_spell_empty (hwords : ∀ word ∈ words, IsToken word) (hne : words ≠ []) :
    separator :: (spell "" words).toList = wordsBehind words := by
  obtain ⟨first, rest, rfl⟩ := List.exists_cons_of_ne_nil hne
  have hstep : spell "" (first :: rest) = spell first rest := by simp [spell]
  rw [hstep, toList_spell (hwords first List.mem_cons_self).ne_empty]
  simp [wordsBehind]

/-- Tokens are read back from their characters. -/
theorem wordsBehind_injective {words' : List String} (hwords : ∀ word ∈ words, IsToken word)
    (hwords' : ∀ word ∈ words', IsToken word) (h : wordsBehind words = wordsBehind words') :
    words = words' := by
  induction words generalizing words' with
  | nil =>
    cases words' with
    | nil => rfl
    | cons word rest => simp [wordsBehind] at h
  | cons word rest ih =>
    cases words' with
    | nil => simp [wordsBehind] at h
    | cons word' rest' =>
      obtain ⟨hword, hrest⟩ := List.forall_mem_cons.1 hwords
      obtain ⟨hword', hrest'⟩ := List.forall_mem_cons.1 hwords'
      have htext : word.toList ++ wordsBehind rest = word'.toList ++ wordsBehind rest' := by
        simpa [wordsBehind] using h
      -- Both words end where the first separator stands.
      have hline : String.ofList (word.toList ++ wordsBehind rest) =
          String.ofList (word'.toList ++ wordsBehind rest') := congrArg String.ofList htext
      obtain rfl : word = word' := by
        rw [← Reader.peekWord_ofString hword.ne_separator (String.toList_ofList ..)
          (endsWord_wordsBehind rest), hline]
        exact Reader.peekWord_ofString hword'.ne_separator (String.toList_ofList ..)
          (endsWord_wordsBehind rest')
      rw [ih hrest hrest' (List.append_cancel_left htext)]

/-- A line goes on with no other tokens. -/
theorem spell_injective {words' : List String} (hwords : ∀ word ∈ words, IsToken word)
    (hwords' : ∀ word ∈ words', IsToken word) (h : spell line words = spell line words') :
    words = words' := by
  have htext := congrArg String.toList h
  by_cases hline : line = ""
  · subst hline
    have hempty : ∀ words : List String, (∀ word ∈ words, IsToken word) →
        spell "" words = "" → words = [] := by
      intro words hwords hspell
      by_contra hne
      have := toList_spell_empty hwords hne
      obtain ⟨first, rest, rfl⟩ := List.exists_cons_of_ne_nil hne
      have hfirst := (hwords first List.mem_cons_self).ne_empty
      simp [hspell, wordsBehind, hfirst] at this
    by_cases hnil : words = []
    · subst hnil
      exact (hempty words' hwords' h.symm).symm
    · have hnil' : words' ≠ [] := fun hnil' => hnil (hempty words hwords (by rw [h, hnil']; rfl))
      refine wordsBehind_injective hwords hwords' ?_
      rw [← toList_spell_empty hwords hnil, ← toList_spell_empty hwords' hnil', htext]
  · rw [toList_spell hline, toList_spell hline] at htext
    exact wordsBehind_injective hwords hwords' (List.append_cancel_left htext)

/-! ## Ways down -/

/-- Children that the principal may use lead down from a node to another one, with these
words. -/
inductive Descends (t : Tree S E M) (source : S) : Nat → List String → Nat → Prop
  | here {id : Nat} : Descends t source id [] id
  | step {id c x : Nat} {node : Node S E M} {text : String} {words : List String}
    (child : c ∈ t.childIds id) (lookup : t.node? c = some node)
    (label : node.label = some (.literal text)) (use : node.canUse source = true)
    (below : Descends t source c words x) : Descends t source id (text :: words) x

theorem Descends.tokens (h : t.OfTokens) (hway : t.Descends source id words x) :
    ∀ word ∈ words, IsToken word := by
  induction hway with
  | here => simp
  | step child lookup label _ _ ih =>
    obtain ⟨text, hlabel, htoken⟩ :=
      h.token _ _ lookup (Nat.ne_of_gt (root_lt_of_mem_childIds child))
    obtain rfl : text = _ := by simpa [hlabel] using label
    exact List.forall_mem_cons.2 ⟨htoken, ih⟩

/-- Children with one label are one child. -/
theorem Arranged.eq_of_label (h : t.Arranged) {c' : Nat} {node' : Node S E M} {text : String}
    (hc : c ∈ t.childIds id) (hc' : c' ∈ t.childIds id) (lookup : t.node? c = some node)
    (lookup' : t.node? c' = some node') (label : node.label = some (.literal text))
    (label' : node'.label = some (.literal text)) : c = c' := by
  refine List.inj_on_of_nodup_map (h.names id) hc hc' ?_
  simp [nameOf, lookup, lookup', Node.name, label, label']

/-- Words lead down one way only. -/
theorem Descends.unique (h : t.OfTokens) (hx : t.Descends source id words x)
    (hy : t.Descends source id words y) : x = y := by
  induction hx with
  | here =>
    cases hy with
    | here => rfl
  | step child lookup label _ _ ih =>
    cases hy with
    | step child' lookup' label' _ below' =>
      obtain rfl := h.arranged.eq_of_label child child' lookup lookup' label label'
      exact ih below'

/-! ## Lines and their nodes -/

/-- Every usage line from a node on, with the node for which it is shown. -/
def usageNodes (t : Tree S E M) (source : S) (restricted : Bool) (line : String) (id : Nat) :
    List (String × Nat) :=
  match t.node? id with
  | none => []
  | some node =>
    if restricted && !node.canUse source then []
    else
      (if node.executor.isSome then [(line, id)] else []) ++
        match node.redirect with
        | some target =>
          [(joinUsage (if line.isEmpty then node.usage else line) (t.redirectUsage target), id)]
        | none => (t.childrenOf id).flatMap fun ⟨c, _⟩ =>
          let part := t.usageOf c
          t.usageNodes source restricted (if line.isEmpty then part else joinUsage line part) c
termination_by t.size - id
decreasing_by omega

/-- The lines are those that are shown. -/
theorem map_fst_usageNodes (t : Tree S E M) (source : S) (restricted : Bool) (line : String)
    (id : Nat) :
    (t.usageNodes source restricted line id).map Prod.fst =
      t.usageFrom source restricted line id := by
  fun_induction usageNodes t source restricted line id with
  | case1 line id hnone => rw [usageFrom, hnone]; rfl
  | case2 line id node hnode hhidden => rw [usageFrom, hnode]; simp [hhidden]
  | case3 line id node hnode hshown ih =>
    rw [usageFrom, hnode]
    simp only [hshown, List.map_append, Bool.false_eq_true, if_false]
    congr 1
    · split <;> rfl
    · cases node.redirect with
      | some target => rfl
      | none =>
        rw [List.map_flatMap]
        exact List.flatMap_congr fun ⟨c, hc⟩ _ => by simpa using ih c hc

/-- In a tree without redirects, the lines from a node on are its own, if it runs something,
and those of its children. -/
theorem usageNodes_eq (plain : t.IsPlain) (hnode : t.node? id = some node)
    (huse : node.canUse source = true) (line : String) :
    t.usageNodes source true line id =
      (if node.executor.isSome then [(line, id)] else []) ++
        (t.childIds id).flatMap fun c => t.usageNodes source true (spell line [t.usageOf c]) c := by
  rw [usageNodes, hnode, ← map_val_childrenOf, List.flatMap_map]
  simp only [huse, plain id node hnode, Bool.not_true, Bool.and_false, Bool.false_eq_true, if_false]
  rfl

theorem usageNodes_of_not_isUsable (h : t.isUsable source id = false) (line : String) :
    t.usageNodes source true line id = [] := by
  have hlines := t.map_fst_usageNodes source true line id
  rw [usageFrom_of_not_isUsable h, List.map_eq_nil_iff] at hlines
  exact hlines

namespace OfTokens
variable (h : t.OfTokens)
include h

/-- A child is shown as the word that leads down to it. -/
theorem exists_usageOf (child : c ∈ t.childIds id) :
    ∃ node text, t.node? c = some node ∧ node.label = some (.literal text) ∧
      t.usageOf c = text := by
  obtain ⟨node, hnode⟩ := exists_node? (lt_of_mem_childIds child).2
  obtain ⟨text, hlabel, -⟩ := h.token c node hnode (Nat.ne_of_gt (root_lt_of_mem_childIds child))
  exact ⟨node, text, hnode, hlabel, by simp [usageOf, hnode, Node.usage, hlabel, Label.usage]⟩

/-- A line is spelled by a way down to a node that runs something. -/
theorem exists_descends_of_mem {shown : String}
    (hmem : (shown, x) ∈ t.usageNodes source true line id) :
    t.isUsable source id = true ∧ ∃ words node, t.Descends source id words x ∧
      t.node? x = some node ∧ node.executor.isSome = true ∧ shown = spell line words := by
  induction hsize : t.size - id using Nat.strongRecOn generalizing line id with
  | ind size ih =>
    cases huse : t.isUsable source id with
    | false => simp [usageNodes_of_not_isUsable huse] at hmem
    | true =>
      refine ⟨rfl, ?_⟩
      obtain ⟨node, hnode, hcan⟩ := isUsable_iff.1 huse
      rw [usageNodes_eq h.plain hnode hcan, List.mem_append, List.mem_flatMap] at hmem
      rcases hmem with hown | ⟨c, hc, hmem⟩
      · split at hown
        · next hexecutor =>
          obtain ⟨rfl, rfl⟩ := Prod.mk.inj (List.mem_singleton.1 hown)
          exact ⟨[], node, .here, hnode, hexecutor, rfl⟩
        · simp at hown
      · have hlt := lt_of_mem_childIds hc
        obtain ⟨child, text, hchild, hlabel, husage⟩ := h.exists_usageOf hc
        obtain ⟨husable, words, found, hway, hfound, hexecutor, hshown⟩ :=
          ih (t.size - c) (by omega) hmem rfl
        rw [isUsable_eq hchild] at husable
        refine ⟨text :: words, found, .step hc hchild hlabel husable hway, hfound, hexecutor, ?_⟩
        rw [hshown, husage]
        rfl

/-- And every such way spells one. -/
theorem mem_usageNodes_of_descends {words : List String} (usable : t.isUsable source id = true)
    (hway : t.Descends source id words x) (hx : t.node? x = some node)
    (hexecutor : node.executor.isSome = true) (line : String) :
    (spell line words, x) ∈ t.usageNodes source true line id := by
  induction hway generalizing line with
  | @here id =>
    rw [isUsable_eq hx] at usable
    rw [usageNodes_eq h.plain hx usable, if_pos hexecutor]
    exact List.mem_append_left _ (List.mem_singleton.2 rfl)
  | @step id c x child text words hc hchild hlabel hcan _ ih =>
    obtain ⟨above, habove, huse⟩ := isUsable_iff.1 usable
    have husage : t.usageOf c = text := by
      simp [usageOf, hchild, Node.usage, hlabel, Label.usage]
    have hmem := ih (isUsable_eq hchild ▸ hcan) hx (spell line [t.usageOf c])
    rw [usageNodes_eq h.plain habove huse]
    refine List.mem_append_right _ (List.mem_flatMap.2 ⟨c, hc, ?_⟩)
    rw [husage] at hmem ⊢
    exact hmem

theorem mem_usageNodes_iff (usable : t.isUsable source id = true) {shown : String} :
    (shown, x) ∈ t.usageNodes source true line id ↔
      ∃ words node, t.Descends source id words x ∧ t.node? x = some node ∧
        node.executor.isSome = true ∧ shown = spell line words := by
  constructor
  · exact fun hmem => (h.exists_descends_of_mem hmem).2
  · rintro ⟨words, node, hway, hx, hexecutor, rfl⟩
    exact h.mem_usageNodes_of_descends usable hway hx hexecutor line

/-- No line is shown twice. -/
theorem nodup_usageFrom (source : S) (line : String) (id : Nat) :
    (t.usageFrom source true line id).Nodup := by
  induction hsize : t.size - id using Nat.strongRecOn generalizing line id with
  | ind size ih =>
    cases huse : t.isUsable source id with
    | false => simp [usageFrom_of_not_isUsable huse]
    | true =>
      obtain ⟨node, hnode, hcan⟩ := isUsable_iff.1 huse
      -- What a child shows is spelled by its own text first.
      have hfirst : ∀ c ∈ t.childIds id, ∀ shown, shown ∈ t.usageFrom source true
          (spell line [t.usageOf c]) c → ∃ words, (∀ word ∈ t.usageOf c :: words, IsToken word) ∧
            shown = spell line (t.usageOf c :: words) := by
        intro c hc shown hshown
        rw [← map_fst_usageNodes] at hshown
        obtain ⟨⟨_, x⟩, hmem, rfl⟩ := List.mem_map.1 hshown
        obtain ⟨child, text, hchild, hlabel, husage⟩ := h.exists_usageOf hc
        obtain ⟨husable, words, -, hway, -, -, hshown⟩ := h.exists_descends_of_mem hmem
        rw [isUsable_eq hchild] at husable
        have htokens := (Descends.step hc hchild hlabel husable hway).tokens h
        exact ⟨words, husage ▸ htokens, hshown⟩
      rw [usageFrom_eq hnode hcan, h.plain id node hnode]
      refine List.nodup_append.2 ⟨by split <;> simp, List.nodup_flatMap.2 ⟨?_, ?_⟩, ?_⟩
      · intro c hc
        have hlt := lt_of_mem_childIds hc
        exact ih (t.size - c) (by omega) _ _ rfl
      · refine (List.Nodup.of_map _ (h.arranged.names id)).pairwise_of_forall_ne ?_
        intro c hc c' hc' hne shown hshown hshown'
        obtain ⟨words, htokens, hwords⟩ := hfirst c hc shown hshown
        obtain ⟨words', htokens', hwords'⟩ := hfirst c' hc' shown hshown'
        have hheads := (spell_injective htokens htokens' (hwords.symm.trans hwords'))
        obtain ⟨child, text, hchild, hlabel, husage⟩ := h.exists_usageOf hc
        obtain ⟨child', text', hchild', hlabel', husage'⟩ := h.exists_usageOf hc'
        obtain rfl : text = text' := husage.symm.trans ((List.cons.inj hheads).1.trans husage')
        exact hne (h.arranged.eq_of_label hc hc' hchild hchild' hlabel hlabel')
      · intro own hown shown hshown heq
        subst heq
        obtain ⟨c, hc, hshown⟩ := List.mem_flatMap.1 hshown
        obtain ⟨words, htokens, hwords⟩ := hfirst c hc own hshown
        have hline : own = spell line [] := by
          split at hown
          · exact List.mem_singleton.1 hown
          · simp at hown
        have := spell_injective (by simp) htokens (hline.symm.trans hwords)
        simp at this

end OfTokens

end Tree
end Dispatch
