import Dispatch.Proofs.Parse.Hiding
/-!
# Where completions take place

The ranges of the nodes that a parse visits lie side by side, over all contexts of its chain, with
one separator between two of them. So a cursor touches at most one of them
(`Derives.pairwise_before`). A completion goes to the first context that reaches as far as the
cursor. If the cursor touches a node there, the completion takes the place of that node; otherwise
the cursor lies beyond everything that was read, and the completion goes on behind the last node.
`Chain.PlacesAt` says so of a place, and `placesAt_completionPoint` of the place that is found.

The ranges of contexts are what makes the search stop at the right one. The invariant of the
descent is `Context.IsFilled`: a context reaches to the end of its last node.
-/
namespace Dispatch
variable {S E M : Type}

/-- A cursor stands in a span or at one of its ends. -/
def Span.Touches (s : Span) (cursor : Nat) : Prop := s.start ≤ cursor ∧ cursor ≤ s.stop

/-- One node ends before another one starts. -/
def ParsedNode.Before (u v : ParsedNode) : Prop := u.range.stop < v.range.start

theorem ParsedNode.Before.trans {u v w : ParsedNode} (h : u.Before v) (h' : v.Before w) :
    u.Before w :=
  Nat.lt_trans h (Nat.lt_of_le_of_lt v.range.ordered h')

instance : Trans ParsedNode.Before ParsedNode.Before ParsedNode.Before := ⟨.trans⟩

theorem ParsedNode.Before.not_touches {u v : ParsedNode} (h : u.Before v) {cursor : Nat}
    (hv : v.range.Touches cursor) : ¬u.range.Touches cursor := by
  intro hu
  have hgap : u.range.stop < v.range.start := h
  have hstart := hv.1
  have hstop := hu.2
  omega

/-- A cursor touches one of several nodes that lie side by side at most. -/
theorem ParsedNode.eq_of_touches {nodes : List ParsedNode} (h : nodes.Pairwise Before)
    {cursor i j : Nat} {u v : ParsedNode} (hi : nodes[i]? = some u) (hj : nodes[j]? = some v)
    (hu : u.range.Touches cursor) (hv : v.range.Touches cursor) : i = j := by
  obtain ⟨hilt, rfl⟩ := List.getElem?_eq_some_iff.1 hi
  obtain ⟨hjlt, rfl⟩ := List.getElem?_eq_some_iff.1 hj
  have hpair := List.pairwise_iff_getElem.1 h
  rcases Nat.lt_trichotomy i j with hlt | heq | hgt
  · exact absurd hu ((hpair i j hilt hjlt hlt).not_touches hv)
  · exact heq
  · exact absurd hv ((hpair j i hjlt hilt hgt).not_touches hu)

namespace Context

/-- The last of some nodes that were visited, or the node where the context starts. -/
def behind (c : Context S E M) (nodes : List ParsedNode) : Nat :=
  nodes.getLast?.elim c.root ParsedNode.node

/-- Where a node behind those that were visited starts. -/
def nextStart (c : Context S E M) : Nat :=
  c.nodes.getLast?.elim c.range.start fun v => v.range.stop + 1

/-- The context reaches to the end of its last node. -/
def IsFilled (c : Context S E M) : Prop :=
  c.range.stop = c.nodes.getLast?.elim c.range.start fun v => v.range.stop

/-- A child that is visited fills the context up to where it ends. -/
theorem isFilled_visit {c : Context S E M} {r : Reader} (child : Offspring S E M)
    (taken : Taken r) (within : c.range.stop ≤ r.cursor) :
    (child.visit c taken).range.stop = taken.after.cursor ∧ (child.visit c taken).IsFilled := by
  have honward := taken.onward
  have hstop : (child.visit c taken).range.stop = taken.after.cursor := by
    rw [Offspring.visit_range]
    simp only [Span.encompassing, Taken.range]
    omega
  refine ⟨hstop, ?_⟩
  rw [IsFilled, hstop, Offspring.visit_nodes, List.getLast?_concat]
  rfl

end Context

/-- All contexts that a parse goes through are filled. -/
theorem Dispatcher.Yields.isFilled {d : Dispatcher S E M} {node : Nat} {r : Reader}
    {c : Context S E M} {p : Parse S E M} (h : d.Yields node r c p) (filled : c.IsFilled)
    (within : c.range.stop ≤ r.cursor) : ∀ level ∈ p.chain.levels, level.IsFilled := by
  induction h with
  | stuck _ => simpa [Chain.levels, Chain.single] using filled
  | @ended _ _ _ child taken _ _ _ =>
    have hvisit := (Context.isFilled_visit child taken within).2
    simpa [Parse.ended, Chain.levels, Chain.single] using hvisit
  | @descended _ _ _ child taken _ _ _ _ _ _ ih =>
    obtain ⟨hstop, hvisit⟩ := Context.isFilled_visit child taken within
    exact ih hvisit (hstop ▸ Nat.le_succ _)
  | @redirected _ _ c child taken target p _ _ _ _ _ _ ih =>
    intro level hlevel
    rcases List.mem_cons.1 hlevel with rfl | hlevel
    · exact (Context.isFilled_visit child taken within).2
    · exact ih rfl (Nat.le_refl _) level hlevel

/-! ## Nodes side by side -/

namespace Context
variable {d : Dispatcher S E M} {source : S} {input : String} {root start depth cursor : Nat}
  {c : Context S E M}

theorem IsDerived.pairwise_before (h : c.IsDerived d source input root start depth) :
    c.nodes.Pairwise ParsedNode.Before := by
  refine (h.path.imp fun u v hfollows => ?_).pairwise
  obtain ⟨-, hstart⟩ := hfollows
  rw [ParsedNode.Before, hstart]
  exact Nat.lt_succ_self _

theorem IsDerived.start_le (h : c.IsDerived d source input root start depth) :
    ∀ v ∈ c.nodes, start ≤ v.range.start := by
  have hbefore := h.pairwise_before
  have hfirst := h.first
  intro v hv
  cases hnodes : c.nodes with
  | nil => simp [hnodes] at hv
  | cons first rest =>
    rw [hnodes] at hv hbefore hfirst
    have hstart : first.range.start = start := (hfirst first rfl).2
    rcases List.mem_cons.1 hv with rfl | hv
    · exact Nat.le_of_eq hstart.symm
    · have hgap : first.range.stop < v.range.start := (List.pairwise_cons.1 hbefore).1 v hv
      have hordered := first.range.ordered
      omega

theorem IsDerived.stop_lt_nextStart (h : c.IsDerived d source input root start depth) :
    ∀ v ∈ c.nodes, v.range.stop < c.nextStart := by
  have hbefore := h.pairwise_before
  intro v hv
  obtain hnil | ⟨others, last, hnodes⟩ := List.eq_nil_or_concat' c.nodes
  · simp [hnil] at hv
  · rw [nextStart, hnodes, List.getLast?_concat, Option.elim_some]
    rw [hnodes] at hv hbefore
    rcases List.mem_append.1 hv with hv | hv
    · have hgap : v.range.stop < last.range.start :=
        (List.pairwise_append.1 hbefore).2.2 v hv last (List.mem_singleton_self _)
      have hordered := last.range.ordered
      omega
    · obtain rfl := List.mem_singleton.1 hv
      exact Nat.lt_succ_self _

theorem IsFilled.nextStart_eq (filled : c.IsFilled) (nonempty : c.nodes ≠ []) :
    c.nextStart = c.range.stop + 1 := by
  rw [IsFilled, List.getLast?_eq_some_getLast nonempty, Option.elim_some] at filled
  rw [nextStart, List.getLast?_eq_some_getLast nonempty, Option.elim_some, filled]

/-- A cursor beyond a context is where a further node would start, or beyond. -/
theorem IsFilled.nextStart_le (filled : c.IsFilled) (hstart : c.range.start ≤ cursor)
    (past : c.range.stop < cursor) : c.nextStart ≤ cursor := by
  by_cases hnodes : c.nodes = []
  · simpa [nextStart, hnodes] using hstart
  · rw [filled.nextStart_eq hnodes]
    exact past

theorem IsDerived.stop_le (h : c.IsDerived d source input root start depth) (filled : c.IsFilled) :
    ∀ v ∈ c.nodes, v.range.stop ≤ c.range.stop := by
  intro v hv
  have hlt := h.stop_lt_nextStart v hv
  rw [filled.nextStart_eq (List.ne_nil_of_mem hv)] at hlt
  exact Nat.le_of_lt_succ hlt

theorem IsDerived.start_le_nextStart (h : c.IsDerived d source input root start depth) :
    start ≤ c.nextStart := by
  rw [nextStart]
  cases hlast : c.nodes.getLast? with
  | none => exact Nat.le_of_eq h.start_eq.symm
  | some v =>
    have hstart := h.start_le v (List.mem_of_getLast? hlast)
    have hordered := v.range.ordered
    simp only [Option.elim_some]
    omega

/-- Nodes with one separator between two of them leave out no cursor. -/
theorem exists_touches {t : Tree S E M} {nodes : List ParsedNode}
    (path : nodes.IsChain t.Follows) {first last : ParsedNode}
    (hfirst : nodes.head? = some first) (hlast : nodes.getLast? = some last)
    (from_start : first.range.start ≤ cursor) (to_stop : cursor ≤ last.range.stop) :
    ∃ v ∈ nodes, v.range.Touches cursor := by
  induction nodes generalizing first with
  | nil => simp at hfirst
  | cons u rest ih =>
    obtain rfl : u = first := by simpa using hfirst
    by_cases hu : cursor ≤ u.range.stop
    · exact ⟨u, List.mem_cons_self, from_start, hu⟩
    · obtain ⟨hfollows, hrest⟩ := List.isChain_cons.1 path
      cases rest with
      | nil =>
        obtain rfl : u = last := by simpa using hlast
        exact absurd to_stop hu
      | cons next others =>
        obtain ⟨-, hstart⟩ := hfollows next rfl
        rw [List.getLast?_cons_cons] at hlast
        obtain ⟨v, hv, htouches⟩ := ih hrest rfl hlast (by omega)
        exact ⟨v, List.mem_cons_of_mem u hv, htouches⟩

/-- A cursor between the ends of a context touches one of its nodes, if there are any. -/
theorem IsDerived.exists_touches (h : c.IsDerived d source input root start depth)
    (filled : c.IsFilled) (nonempty : c.nodes ≠ []) (hstart : start ≤ cursor)
    (hstop : cursor ≤ c.range.stop) : ∃ v ∈ c.nodes, v.range.Touches cursor := by
  have hlast := List.getLast?_eq_some_getLast nonempty
  have hfirst := List.head?_eq_some_head nonempty
  rw [IsFilled, hlast, Option.elim_some] at filled
  refine Context.exists_touches h.path hfirst hlast ?_ (filled ▸ hstop)
  rw [(h.first _ hfirst).2]
  exact hstart

/-- The search among the nodes of a context finds the one that the cursor touches. -/
theorem pointWithin_of_touches (c : Context S E M) {before after : List ParsedNode}
    {v : ParsedNode} (hv : v.range.Touches cursor)
    (hbefore : ∀ u ∈ before, ¬u.range.Touches cursor) (previous : Nat) :
    c.pointWithin cursor previous (before ++ v :: after) =
      ⟨before.getLast?.elim previous ParsedNode.node, v.range.start⟩ := by
  induction before generalizing previous with
  | nil => exact if_pos hv
  | cons u rest ih =>
    have hu : ¬(u.range.start ≤ cursor ∧ cursor ≤ u.range.stop) := hbefore u List.mem_cons_self
    rw [List.cons_append, pointWithin, if_neg hu,
      ih fun w hw => hbefore w (List.mem_cons_of_mem u hw)]
    rw [List.getLast?_cons]
    cases rest.getLast? <;> rfl

/-- The point of a completion that takes the place of the node that the cursor touches. -/
theorem IsDerived.pointWithin_eq (h : c.IsDerived d source input root start depth)
    {before after : List ParsedNode} {v : ParsedNode} (split : c.nodes = before ++ v :: after)
    (hv : v.range.Touches cursor) :
    c.pointWithin cursor c.root c.nodes = ⟨c.behind before, v.range.start⟩ := by
  have hbefore := h.pairwise_before
  rw [split, List.pairwise_append] at hbefore
  rw [split]
  refine c.pointWithin_of_touches hv (fun u hu => ?_) c.root
  exact (hbefore.2.2 u hu v List.mem_cons_self).not_touches hv

/-- The point of a completion that goes on behind the last node, if that is a node of the
input. -/
theorem IsDerived.pointAfter_eq (h : c.IsDerived d source input root start depth)
    (keeps : d.tree.KeepsText) (filled : c.IsFilled) (past : c.range.stop < cursor)
    (within : cursor ≤ Text.size input) :
    c.pointAfter = ⟨c.behind c.nodes, c.nextStart⟩ := by
  rw [IsFilled] at filled
  rw [pointAfter, behind, nextStart]
  cases hlast : c.nodes.getLast? with
  | none => rfl
  | some v =>
    rw [hlast, Option.elim_some] at filled
    have hmin : min (v.range.stop + 1) (Text.size input) = v.range.stop + 1 := by omega
    simp only [(h.text keeps).input_eq, hmin, Option.elim_some]

end Context

/-! ## Chains -/

theorem Chain.last_cons (c next : Context S E M) (inner : List (Context S E M)) :
    (⟨c, next :: inner⟩ : Chain S E M).last = (⟨next, inner⟩ : Chain S E M).last :=
  List.getLastD_cons ..

/-- The nodes that were visited in any of the contexts, in order. -/
def Chain.visited (chain : Chain S E M) : List ParsedNode := chain.levels.flatMap Context.nodes

/-- Where a completion takes place for a cursor: at a point, in one of the contexts. -/
structure Chain.PlacesAt (chain : Chain S E M) (cursor : Nat) (point : CompletionPoint)
    (level : Context S E M) : Prop where
  mem : level ∈ chain.levels
  start_le : point.start ≤ cursor
  /-- It takes the place of the node that the cursor touches, under the node before that. -/
  within : ∀ before v after, level.nodes = before ++ v :: after → v.range.Touches cursor →
    point = ⟨level.behind before, v.range.start⟩
  /-- If there is no such node, the cursor lies beyond all nodes of the innermost context, and
  the completion goes on behind the last of them, or where the context starts. -/
  beyond : (∀ v ∈ level.nodes, ¬v.range.Touches cursor) → level = chain.last ∧
    (∀ v ∈ level.nodes, v.range.stop < cursor) ∧
    point = ⟨level.behind level.nodes, level.nextStart⟩

namespace Dispatcher
variable {d : Dispatcher S E M} {source : S} {input : String} {root start depth cursor : Nat}
  {c : Context S E M} {inner : List (Context S E M)}

/-- The nodes of all contexts lie side by side. -/
theorem Derives.pairwise_before (h : d.Derives source input root start depth c inner)
    (filled : ∀ level ∈ c :: inner, level.IsFilled) :
    ((c :: inner).flatMap Context.nodes).Pairwise ParsedNode.Before ∧
      ∀ v ∈ (c :: inner).flatMap Context.nodes, start ≤ v.range.start := by
  induction h with
  | innermost derived =>
    simpa using ⟨derived.pairwise_before, derived.start_le⟩
  | @nested _ _ _ c next inner last _ _ derived hlast _ _ _ _ rest ih =>
    obtain ⟨hinner, hstart⟩ := ih fun level hlevel => filled level (List.mem_cons_of_mem c hlevel)
    have hfilled := filled c List.mem_cons_self
    have hstop := derived.stop_le hfilled
    rw [Context.IsFilled, hlast, Option.elim_some] at hfilled
    have hordered := derived.start_le last (List.mem_of_getLast? hlast)
    have hlastOrdered := last.range.ordered
    rw [List.flatMap_cons]
    constructor
    · refine List.pairwise_append.2 ⟨derived.pairwise_before, hinner, fun u hu v hv => ?_⟩
      -- What comes behind the redirect starts one byte after the end of the context.
      have hbehind := hstart v hv
      have hu' := hstop u hu
      rw [ParsedNode.Before]
      omega
    · intro v hv
      rcases List.mem_append.1 hv with hv | hv
      · exact derived.start_le v hv
      · have hbehind := hstart v hv
        omega

/-- In a context that reaches as far as the cursor, the completion takes the place of the node
that the cursor touches. -/
theorem Derives.placesAt_within (h : d.Derives source input root start depth c inner)
    (filled : c.IsFilled) (hstart : start ≤ cursor) (hstop : cursor ≤ c.range.stop) :
    Chain.PlacesAt ⟨c, inner⟩ cursor (c.pointWithin cursor c.root c.nodes) c := by
  have derived := h.outer
  refine ⟨List.mem_cons_self, ?_, fun _ _ _ => derived.pointWithin_eq, fun untouched => ?_⟩
  · by_cases hnodes : c.nodes = []
    · rw [hnodes]
      exact Nat.le_trans (Nat.le_of_eq derived.start_eq) hstart
    · obtain ⟨v, hv, htouches⟩ := derived.exists_touches filled hnodes hstart hstop
      obtain ⟨before, after, split⟩ := List.append_of_mem hv
      rw [derived.pointWithin_eq split htouches]
      exact htouches.1
  · have hnodes : c.nodes = [] := by
      refine Decidable.byContradiction fun hne => ?_
      obtain ⟨v, hv, htouches⟩ := derived.exists_touches filled hne hstart hstop
      exact untouched v hv htouches
    have hlast : c = (⟨c, inner⟩ : Chain S E M).last := by
      cases h with
      | innermost _ => rfl
      | nested _ last _ _ _ _ _ => simp [hnodes] at last
    rw [hnodes]
    refine ⟨hlast, by simp, ?_⟩
    simp [Context.pointWithin, Context.behind, Context.nextStart, hnodes]

/-- The place that is found in a chain is right for the cursor. -/
theorem Derives.placesAt (h : d.Derives source input root start depth c inner)
    (keeps : d.tree.KeepsText) (filled : ∀ level ∈ c :: inner, level.IsFilled)
    (hstart : start ≤ cursor)
    (within : cursor ≤ Text.size input) :
    Chain.PlacesAt ⟨c, inner⟩ cursor (c.completionPoint cursor inner).1
      (c.completionPoint cursor inner).2 := by
  induction h with
  | @innermost root start depth c derived =>
    have hfilled := filled c List.mem_cons_self
    rw [Context.completionPoint]
    by_cases past : c.range.stop < cursor
    · have hstop := derived.stop_le hfilled
      have hpoint := derived.pointAfter_eq keeps hfilled past within
      rw [if_pos past]
      refine ⟨List.mem_cons_self, ?_, fun before v after split htouches => ?_, fun _ => ?_⟩
      · rw [hpoint]
        exact hfilled.nextStart_le (derived.start_eq ▸ hstart) past
      · have hv := hstop v (split ▸ List.mem_append_right before List.mem_cons_self)
        have hle := htouches.2
        omega
      · exact ⟨rfl, fun v hv => Nat.lt_of_le_of_lt (hstop v hv) past, hpoint⟩
    · rw [if_neg past]
      exact (Derives.innermost derived).placesAt_within hfilled hstart (Nat.le_of_not_lt past)
  | @nested root start depth c next inner last node target derived hlast lookup redirect space
      limit rest ih =>
    have hfilled := filled c List.mem_cons_self
    rw [Context.completionPoint]
    by_cases past : c.range.stop < cursor
    · rw [if_pos past]
      have hbehind : last.range.stop + 1 ≤ cursor := by
        rw [Context.IsFilled, hlast, Option.elim_some] at hfilled
        omega
      obtain ⟨hmem, hle, hwithin, hbeyond⟩ :=
        ih (fun level hlevel => filled level (List.mem_cons_of_mem c hlevel)) hbehind
      rw [← Chain.last_cons c next inner] at hbeyond
      exact ⟨List.mem_cons_of_mem c hmem, hle, hwithin, hbeyond⟩
    · rw [if_neg past]
      exact (Derives.nested derived hlast lookup redirect space limit rest).placesAt_within hfilled
        hstart (Nat.le_of_not_lt past)

/-- Behind a chain, a node would start beyond all nodes of the contexts in front of the
last. -/
theorem Derives.stop_lt_nextStart (h : d.Derives source input root start depth c inner)
    (filled : ∀ level ∈ c :: inner, level.IsFilled) :
    start ≤ (⟨c, inner⟩ : Chain S E M).last.nextStart ∧
      ∀ level ∈ c :: inner, level ≠ (⟨c, inner⟩ : Chain S E M).last → ∀ v ∈ level.nodes,
        v.range.stop < (⟨c, inner⟩ : Chain S E M).last.nextStart := by
  induction h with
  | @innermost root start depth c derived =>
    refine ⟨derived.start_le_nextStart, fun level hlevel hne => ?_⟩
    exact absurd (List.mem_singleton.1 hlevel) hne
  | @nested root start depth c next inner last _ _ derived hlast _ _ _ _ rest ih =>
    obtain ⟨hstart, hinner⟩ := ih fun level hlevel => filled level (List.mem_cons_of_mem c hlevel)
    have hfilled := filled c List.mem_cons_self
    have hstop := derived.stop_le hfilled
    rw [Context.IsFilled, hlast, Option.elim_some] at hfilled
    rw [Chain.last_cons]
    constructor
    · have hordered := last.range.ordered
      have hfirst := derived.start_le last (List.mem_of_getLast? hlast)
      omega
    · intro level hlevel hne v hv
      rcases List.mem_cons.1 hlevel with rfl | hlevel
      · have hle := hstop v hv
        omega
      · exact hinner level hlevel hne v hv

/-- A cursor that touches nodes of two contexts of a chain touches them in one context. -/
theorem Derives.level_eq (h : d.Derives source input root start depth c inner)
    (filled : ∀ level ∈ c :: inner, level.IsFilled) {level other : Context S E M}
    (hlevel : level ∈ c :: inner) (hother : other ∈ c :: inner) {v w : ParsedNode}
    (hv : v ∈ level.nodes) (hw : w ∈ other.nodes) (htouches : v.range.Touches cursor)
    (htouches' : w.range.Touches cursor) : level = other := by
  have hbefore := (List.pairwise_flatMap.1 (h.pairwise_before filled).1).2
  rw [List.pairwise_iff_getElem] at hbefore
  obtain ⟨i, hi, rfl⟩ := List.getElem_of_mem hlevel
  obtain ⟨j, hj, rfl⟩ := List.getElem_of_mem hother
  rcases Nat.lt_trichotomy i j with hlt | rfl | hgt
  · exact absurd htouches ((hbefore i j hi hj hlt v hv w hw).not_touches htouches')
  · rfl
  · exact absurd htouches' ((hbefore j i hj hi hgt w hw v hv).not_touches htouches)

/-- A cursor that touches a node completes in the context of that node. -/
theorem Derives.level_eq_of_touches (h : d.Derives source input root start depth c inner)
    (filled : ∀ level ∈ c :: inner, level.IsFilled) {point : CompletionPoint}
    {level other : Context S E M} (places : Chain.PlacesAt ⟨c, inner⟩ cursor point level)
    (hother : other ∈ c :: inner) {w : ParsedNode} (hw : w ∈ other.nodes)
    (htouches : w.range.Touches cursor) : level = other := by
  by_cases touched : ∃ v ∈ level.nodes, v.range.Touches cursor
  · obtain ⟨v, hv, hcursor⟩ := touched
    exact h.level_eq filled places.mem hother hv hw hcursor htouches
  · obtain ⟨hlast, -, hpoint⟩ := places.beyond fun v hv hcursor => touched ⟨v, hv, hcursor⟩
    have hstart := places.start_le
    have hstop := htouches.2
    rw [hpoint, hlast] at hstart
    refine Classical.byContradiction fun hne => ?_
    have hlt := (h.stop_lt_nextStart filled).2 other hother (hlast ▸ Ne.symm hne) w hw
    exact absurd (Nat.le_trans hstart hstop) (Nat.not_le_of_lt hlt)

/-- There is one place for a cursor. -/
theorem Derives.placesAt_unique (h : d.Derives source input root start depth c inner)
    (filled : ∀ level ∈ c :: inner, level.IsFilled) {point point' : CompletionPoint}
    {level level' : Context S E M} (places : Chain.PlacesAt ⟨c, inner⟩ cursor point level)
    (places' : Chain.PlacesAt ⟨c, inner⟩ cursor point' level') :
    point' = point ∧ level' = level := by
  by_cases touched : ∃ other ∈ c :: inner, ∃ w ∈ other.nodes, w.range.Touches cursor
  · obtain ⟨other, hother, w, hw, htouches⟩ := touched
    obtain rfl := h.level_eq_of_touches filled places hother hw htouches
    obtain rfl := h.level_eq_of_touches filled places' hother hw htouches
    obtain ⟨before, after, split⟩ := List.append_of_mem hw
    rw [places.within before w after split htouches, places'.within before w after split htouches]
    exact ⟨rfl, rfl⟩
  · have untouched : ∀ other ∈ c :: inner, ∀ w ∈ other.nodes, ¬w.range.Touches cursor :=
      fun other hother w hw htouches => touched ⟨other, hother, w, hw, htouches⟩
    obtain ⟨hlast, -, hpoint⟩ := places.beyond (untouched level places.mem)
    obtain ⟨hlast', -, hpoint'⟩ := places'.beyond (untouched level' places'.mem)
    obtain rfl := hlast'.trans hlast.symm
    exact ⟨hpoint'.trans hpoint.symm, rfl⟩

/-- All contexts of a parse are filled. -/
theorem isFilled_parse (d : Dispatcher S E M) (input : String) (source : S) :
    ∀ level ∈ (d.parse input source).chain.levels, level.IsFilled :=
  (d.parseAt_yields Tree.root (.ofString input) _).isFilled rfl (Nat.le_refl _)

/-- Where parsers keep the text, there is one place in the parse of a line for every cursor in
the line, the one that a completion is given. Whatever parsers do, the cursor touches one of
the nodes that were visited at most. -/
theorem placesAt_completionPoint (d : Dispatcher S E M) (input : String) (source : S)
    {cursor : Nat} (within : cursor ≤ Text.size input) :
    (d.tree.KeepsText → ∀ point level, (d.parse input source).chain.PlacesAt cursor point level ↔
      (d.parse input source).chain.completionPoint cursor = (point, level)) ∧
    ∀ (i j : Nat) (u v : ParsedNode), (d.parse input source).chain.visited[i]? = some u →
      (d.parse input source).chain.visited[j]? = some v → u.range.Touches cursor →
        v.range.Touches cursor → i = j := by
  have hderives : d.Derives source input Tree.root 0 0 (d.parse input source).chain.outer
      (d.parse input source).chain.inner :=
    d.parseAt_derives (Reader.isOnBoundary_ofString input) Tree.root source
  have filled := d.isFilled_parse input source
  constructor
  · intro keeps point level
    have hplaces : (d.parse input source).chain.PlacesAt cursor
        ((d.parse input source).chain.completionPoint cursor).1
        ((d.parse input source).chain.completionPoint cursor).2 :=
      hderives.placesAt keeps filled (Nat.zero_le _) within
    constructor
    · intro other
      obtain ⟨hpoint, hlevel⟩ := hderives.placesAt_unique filled other hplaces
      exact Prod.ext hpoint hlevel
    · intro found
      rw [found] at hplaces
      exact hplaces
  · intro i j u v hi hj
    exact ParsedNode.eq_of_touches (hderives.pairwise_before filled).1 hi hj

/-- `hello`, and `each` that goes on from the root. -/
def relay : Dispatcher Unit Nat Unit where
  tree := Tree.empty.afterAll [.register ((Sprout.literal "hello").executes 7),
    .register ((Sprout.literal "each").redirectTo Tree.root)]
  config := {}

theorem placesAt_each_hello : relay.tree.KeepsText ∧ 7 ≤ Text.size "each hello" ∧
    (∃ level, (relay.parse "each hello" ()).chain.PlacesAt 7 ⟨Tree.root, 5⟩ level) ∧
    (∃ level, (relay.parse "each hello" ()).chain.PlacesAt 4 ⟨Tree.root, 0⟩ level) := by
  have keeps : relay.tree.KeepsText := Tree.keepsText_of_isLiteral (by decide)
  refine ⟨keeps, by decide, ⟨((relay.parse "each hello" ()).chain.completionPoint 7).2, ?_⟩,
    ⟨((relay.parse "each hello" ()).chain.completionPoint 4).2, ?_⟩⟩
  · refine ((relay.placesAt_completionPoint "each hello" () (by decide)).1 keeps _ _).2 ?_
    exact Prod.ext (by decide +kernel) rfl
  · refine ((relay.placesAt_completionPoint "each hello" () (by decide)).1 keeps _ _).2 ?_
    exact Prod.ext (by decide +kernel) rfl

end Dispatcher
end Dispatch
