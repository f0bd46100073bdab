import Dispatch.Argument.Standard
import Dispatch.Proofs.Parse.Step
import Dispatch.Proofs.Parse.Taking
import Dispatch.Proofs.Tree.Growth
/-!
# Parses find the first route

A route is a way down a tree along which every node takes its part of the line, one separator
between two of them, until nothing is left to read. It is told by the places of its nodes among
their siblings. A parse does not look for routes: at every node it takes the best of what came of
the children. In a tree without redirects this loses nothing. A line is parsed completely if there
is a route for it at all, and then by the first route in the order of places, without errors.
`Dispatcher.Finds` says so of the parse from any node, and `parseAt_finds` shows it.

What is left to read is up to the reader that a parser hands back. Where parsers keep the
text, a route takes the line up to its end (`Route.stop_eq`).
-/
namespace Dispatch
variable {S E M : Type}

/-- No node redirects. -/
def Tree.IsPlain (t : Tree S E M) : Prop :=
  ∀ id node, t.node? id = some node → node.redirect = none

theorem Tree.isPlain_empty : (Tree.empty : Tree S E M).IsPlain := by
  intro id node hnode
  rw [(Tree.eq_root_of_node?_empty hnode).2]
  rfl

theorem Tree.IsPlain.addNode {t : Tree S E M} (h : t.IsPlain) (parent : Nat)
    {node : Node S E M} (plain : node.redirect = none) : (t.addNode parent node).IsPlain := by
  intro id found hfound
  obtain ⟨-, rfl⟩ | ⟨-, old, children, hold, rfl⟩ := Tree.exists_of_node?_addNode hfound
  · exact plain
  · exact h id old hold

/-- A child as it stands in the tree, if the principal may use it. -/
def Tree.Offers (t : Tree S E M) (source : S) (child : Offspring S E M) : Prop :=
  t.node? child.id = some child.node ∧ child.node.label = some child.label ∧
    child.node.canUse source = true

theorem Tree.Offers.unique {t : Tree S E M} {source : S} {child other : Offspring S E M}
    (h : t.Offers source child) (h' : t.Offers source other) (hid : child.id = other.id) :
    child = other := by
  obtain ⟨hnode, hlabel, -⟩ := h
  obtain ⟨hnode', hlabel', -⟩ := h'
  rw [hid, hnode'] at hnode
  rw [← Option.some.inj hnode, hlabel'] at hlabel
  obtain ⟨id, node, label⟩ := child
  obtain ⟨id', node', label'⟩ := other
  simp_all

/-- The nodes on the way down from a node that takes the children in the given places. -/
def Tree.along (t : Tree S E M) : Nat → List Nat → List Nat
  | _, [] => []
  | node, place :: places =>
    match (t.childIds node)[place]? with
    | some id => id :: t.along id places
    | none => []

/-- Places that are others, or come before them in lexicographic order. -/
def NoLater (places others : List Nat) : Prop := places = others ∨ List.Lex (· < ·) places others

theorem noLater_nil (others : List Nat) : NoLater [] others := by
  cases others with
  | nil => exact .inl rfl
  | cons place places => exact .inr .nil

theorem NoLater.cons {places others : List Nat} (h : NoLater places others) (place : Nat) :
    NoLater (place :: places) (place :: others) := by
  obtain rfl | hlex := h
  · exact .inl rfl
  · exact .inr (.cons hlex)

/-- From a node, a reader and a context, the children in the given places take all that there
is to read. The last context is what they bind. -/
inductive Dispatcher.Route (d : Dispatcher S E M) :
    Nat → Reader → Context S E M → List Nat → Context S E M → Prop
  /-- A child takes all that is left. -/
  | last {node place : Nat} {r : Reader} {c : Context S E M} {child : Offspring S E M}
    {taken : Taken r} (here : (d.tree.childIds node)[place]? = some child.id)
    (offered : d.tree.Offers c.source child) (takes : child.label.take c r = .ok taken)
    (atEnd : taken.after.canRead = false) : d.Route node r c [place] (child.visit c taken)
  /-- Behind a child and a separator the route goes on, with something left to read. -/
  | further {node place : Nat} {places : List Nat} {r : Reader} {c below : Context S E M}
    {child : Offspring S E M} {taken : Taken r}
    (here : (d.tree.childIds node)[place]? = some child.id)
    (offered : d.tree.Offers c.source child) (takes : child.label.take c r = .ok taken)
    (space : taken.after.peek = some separator)
    (beforeEnd : taken.after.canReadBytes 2 = true)
    (rest : d.Route child.id taken.after.pastSeparator (child.visit c taken) places below) :
    d.Route node r c (place :: places) below

/-- The visited nodes of a route are those in its places. -/
theorem Dispatcher.Route.nodes_eq {d : Dispatcher S E M} {node : Nat} {r : Reader}
    {c below : Context S E M} {places : List Nat} (h : d.Route node r c places below) :
    below.nodes.map ParsedNode.node = c.nodes.map ParsedNode.node ++ d.tree.along node places := by
  induction h with
  | last here _ _ _ => simp [Tree.along, here]
  | further here _ _ _ _ _ ih => simp [Tree.along, here, ih]

/-! ## The best of several parses -/

namespace Parse

theorem rank_eq_zero {p : Parse S E M} (complete : p.isComplete = true) (clean : p.errors = []) :
    p.rank = 0 := by
  simp [rank, complete, clean]

theorem two_le_rank {p : Parse S E M} (h : p.isComplete = false) : 2 ≤ p.rank := by
  simp [rank, h]

/-- Nothing is better than a complete parse without errors. -/
theorem best_of_rank_eq_zero {first : Parse S E M} (h : first.rank = 0)
    (rest : List (Parse S E M)) : best first rest = first := by
  simp only [best]
  induction rest with
  | nil => rfl
  | cons next rest ih =>
    rw [List.foldl_cons, h, if_neg (Nat.not_lt_zero _), ih]

/-- Where complete parses have no errors, the best parse is the first complete one, if there
is one. -/
theorem best_eq_of_find? {first p : Parse S E M} {rest : List (Parse S E M)}
    (clean : ∀ q ∈ first :: rest, q.isComplete = true → q.errors = [])
    (h : (first :: rest).find? isComplete = some p) : best first rest = p := by
  induction rest generalizing first with
  | nil =>
    rw [List.find?_cons] at h
    split at h
    · simpa [best] using h
    · simp at h
  | cons next rest ih =>
    by_cases hfirst : first.isComplete = true
    · obtain rfl : first = p := by simpa [hfirst] using h
      exact best_of_rank_eq_zero (rank_eq_zero hfirst (clean first (by simp) hfirst)) _
    · rw [List.find?_cons, Bool.eq_false_iff.2 hfirst] at h
      simp only [best] at ih ⊢
      rw [List.foldl_cons]
      split
      · exact ih (fun q hq => clean q (List.mem_cons_of_mem first hq)) h
      · next hrank =>
        have hnext : next.isComplete = false := by
          rw [Bool.eq_false_iff]
          intro hnext
          rw [rank_eq_zero hnext (clean next (by simp) hnext)] at hrank
          have := two_le_rank (Bool.eq_false_iff.2 hfirst)
          omega
        rw [List.find?_cons, hnext] at h
        refine ih (fun q hq => clean q ?_) ?_
        · rcases List.mem_cons.1 hq with rfl | hq <;> simp [*]
        · rw [List.find?_cons, Bool.eq_false_iff.2 hfirst]
          exact h

end Parse

namespace Dispatcher
variable {d : Dispatcher S E M} {source : S} {input : String} {node id : Nat} {r : Reader}
  {c below : Context S E M} {places : List Nat}

/-- The parse that goes on with a child, if the child is eligible and matches. -/
def lead? (d : Dispatcher S E M) (r : Reader) (c : Context S E M) (id : Nat) :
    Option (Parse S E M) := do
  let node ← d.tree.node? id
  let label ← node.label
  if label.fits r.peekWord && node.canUse c.source then
    (d.trial c r ⟨id, node, label⟩).possible?
  else none

/-- Without redirects, a parse is the best of what comes of the children. -/
theorem survey_of_isPlain (plain : d.tree.IsPlain) (node : Nat) (r : Reader)
    (c : Context S E M) :
    ∃ errors, d.survey node r c =
      .choice errors ((d.tree.childIds node).filterMap (d.lead? r c)) := by
  cases h : d.survey node r c with
  | settled p =>
    obtain ⟨child, hmem, htrial⟩ := Survey.exists_of_ofAttempts_eq_settled h
    obtain ⟨taken, target, -, -, hredirect, -⟩ := trial_eq_settled htrial
    obtain ⟨-, hnode, -⟩ := Tree.mem_eligible_iff.1 hmem
    simp [plain _ _ hnode] at hredirect
  | choice errors parses =>
    obtain ⟨-, hparses, -⟩ := Survey.ofAttempts_eq_choice h
    refine ⟨errors, ?_⟩
    rw [hparses, Tree.eligible, List.filterMap_filterMap]
    congr 2
    funext id
    cases hnode : d.tree.node? id with
    | none => simp [lead?, hnode]
    | some found =>
      cases hlabel : found.label with
      | none => simp [lead?, hnode, hlabel]
      | some label =>
        simp only [lead?, hnode, hlabel, Option.bind_eq_bind, Option.bind_some]
        split <;> simp

/-- A child that matches makes a parse: what its children make of the rest, if enough is
left. -/
theorem lead?_eq_some_iff (plain : d.tree.IsPlain) {p : Parse S E M} :
    d.lead? r c id = some p ↔
      ∃ (child : Offspring S E M) (taken : Taken r), child.id = id ∧
        d.tree.Offers c.source child ∧ child.Matches c taken ∧
        p = if taken.after.canReadBytes 2 = true then
            d.parseAt id taken.after.pastSeparator (child.visit c taken)
          else .ended (child.visit c taken) taken.after := by
  simp only [lead?, Option.bind_eq_bind, Option.bind_eq_some_iff]
  constructor
  · rintro ⟨found, hfound, label, hlabel, h⟩
    split at h
    · next huse =>
      rw [Bool.and_eq_true] at huse
      obtain ⟨taken, hm, htrial⟩ := trial_eq_possible (Attempt.possible?_eq_some_iff.1 h)
      refine ⟨⟨id, found, label⟩, taken, rfl, ⟨hfound, hlabel, huse.2⟩, hm, ?_⟩
      obtain ⟨hlast, hp⟩ | ⟨-, hmore, hp⟩ := htrial
      · have hbytes : ¬taken.after.canReadBytes 2 = true := by
          intro hbytes
          have hread : taken.after.canRead = true := Reader.canRead_of_canReadBytes hbytes
          simp [(hlast hread).2] at hbytes
        rw [if_neg hbytes, hp]
      · rw [if_pos hmore, hp]
    · simp at h
  · rintro ⟨child, taken, rfl, ⟨hfound, hlabel, huse⟩, hm, rfl⟩
    refine ⟨child.node, hfound, child.label, hlabel, ?_⟩
    rw [Label.fits_of_take hm.1, huse, Bool.and_self, if_pos rfl, Attempt.possible?_eq_some_iff,
      trial_of_matches hm, plain _ _ hfound]
    by_cases hbytes : taken.after.canReadBytes 2 = true
    · have hread : taken.after.canRead = true := Reader.canRead_of_canReadBytes hbytes
      simp only [hread, hbytes, if_true]
    · simp only [hbytes, Bool.false_eq_true, if_false, ite_self]

/-- What a parse from a node has to do with the routes from there. -/
structure Finds (d : Dispatcher S E M) (node : Nat) (r : Reader) (c : Context S E M)
    (p : Parse S E M) : Prop where
  /-- No route is missed. -/
  complete : ∀ places below, d.Route node r c places below → p.isComplete = true
  /-- The parse follows the first of the routes. -/
  first : p.isComplete = true → p.errors = [] ∧ ∃ places below, d.Route node r c places below ∧
    p.chain = .single below ∧ ∀ others c', d.Route node r c others c' → NoLater places others

/-- A route makes its first child one that leads to a complete parse. -/
theorem Route.exists_lead (plain : d.tree.IsPlain)
    (ih : ∀ id ∈ d.tree.childIds node, ∀ (after : Reader) (c : Context S E M),
      after.canRead = true → d.Finds id after c (d.parseAt id after c))
    (h : d.Route node r c places below) :
    ∃ place others id p, places = place :: others ∧ (d.tree.childIds node)[place]? = some id ∧
      d.lead? r c id = some p ∧ p.isComplete = true := by
  cases h with
  | @last _ place _ _ child taken here offered takes atEnd =>
    have hbytes : ¬taken.after.canReadBytes 2 = true := fun hbytes => by
      simp [Reader.canRead_of_canReadBytes hbytes] at atEnd
    have hm : child.Matches c taken := ⟨takes, by simp [Taken.isCutOff, atEnd]⟩
    refine ⟨place, [], child.id, .ended (child.visit c taken) taken.after, rfl, here,
      (lead?_eq_some_iff plain).2 ⟨child, taken, rfl, offered, hm, by rw [if_neg hbytes]⟩, ?_⟩
    simp [atEnd]
  | @further _ place others _ _ _ child taken here offered takes space beforeEnd rest =>
    have hm : child.Matches c taken := ⟨takes, by simp [Taken.isCutOff, space]⟩
    refine ⟨place, others, child.id, _, rfl, here,
      (lead?_eq_some_iff plain).2 ⟨child, taken, rfl, offered, hm, by rw [if_pos beforeEnd]⟩, ?_⟩
    exact (ih child.id (List.mem_of_getElem? here) _ _
      (Reader.canRead_pastSeparator beforeEnd)).complete _ _ rest

/-- A complete parse that a child leads to follows the first of the routes through it. -/
theorem first_of_lead (plain : d.tree.IsPlain)
    (ih : ∀ (after : Reader) (c : Context S E M), after.canRead = true →
      d.Finds id after c (d.parseAt id after c))
    {p : Parse S E M} (h : d.lead? r c id = some p) (complete : p.isComplete = true) :
    p.errors = [] ∧ ∃ places below, p.chain = .single below ∧
      (∀ node place, (d.tree.childIds node)[place]? = some id →
        d.Route node r c (place :: places) below) ∧
      ∀ node place others c', (d.tree.childIds node)[place]? = some id →
        d.Route node r c (place :: others) c' → NoLater places others := by
  obtain ⟨child, taken, rfl, offered, hm, rfl⟩ := (lead?_eq_some_iff plain).1 h
  by_cases hbytes : taken.after.canReadBytes 2 = true
  · rw [if_pos hbytes] at complete ⊢
    have hread : taken.after.canRead = true := Reader.canRead_of_canReadBytes hbytes
    obtain ⟨clean, places, below, hroute, hchain, hfirst⟩ :=
      (ih _ _ (Reader.canRead_pastSeparator hbytes)).first complete
    refine ⟨clean, places, below, hchain, fun node place here => ?_, ?_⟩
    · exact .further here offered hm.1 (hm.peek hread) hbytes hroute
    · intro node place others c' here hother
      cases hother with
      | last here' offered' takes' atEnd' =>
        obtain rfl := offered.unique offered' (Option.some.inj (here.symm.trans here'))
        obtain rfl := Except.ok.inj (hm.1.symm.trans takes')
        simp [hread] at atEnd'
      | further here' offered' takes' _ _ rest' =>
        obtain rfl := offered.unique offered' (Option.some.inj (here.symm.trans here'))
        obtain rfl := Except.ok.inj (hm.1.symm.trans takes')
        exact hfirst _ _ rest'
  · rw [if_neg hbytes] at complete ⊢
    have atEnd : taken.after.canRead = false := by simpa using complete
    refine ⟨rfl, [], child.visit c taken, rfl, fun node place here => ?_, ?_⟩
    · exact .last here offered hm.1 atEnd
    · exact fun _ _ others _ _ _ => noLater_nil others

/-- Where complete parses have no errors, the first child that leads to one decides. -/
theorem parseAt_eq_of_find? (plain : d.tree.IsPlain) {node : Nat} {p : Parse S E M}
    (clean : ∀ q ∈ (d.tree.childIds node).filterMap (d.lead? r c),
      q.isComplete = true → q.errors = [])
    (h : ((d.tree.childIds node).filterMap (d.lead? r c)).find? Parse.isComplete = some p) :
    d.parseAt node r c = p := by
  obtain ⟨errors, hsurvey⟩ := d.survey_of_isPlain plain node r c
  rw [parseAt_eq, hsurvey]
  cases hleads : (d.tree.childIds node).filterMap (d.lead? r c) with
  | nil => simp [hleads] at h
  | cons first rest =>
    rw [hleads] at clean h
    exact Parse.best_eq_of_find? clean h

/-- A parse that is complete though something was left to read is one that a child led to. -/
theorem parseAt_mem_of_isComplete (plain : d.tree.IsPlain) {node : Nat} (more : r.canRead = true)
    (complete : (d.parseAt node r c).isComplete = true) :
    d.parseAt node r c ∈ (d.tree.childIds node).filterMap (d.lead? r c) := by
  obtain ⟨errors, hsurvey⟩ := d.survey_of_isPlain plain node r c
  rw [parseAt_eq, hsurvey] at complete ⊢
  cases hleads : (d.tree.childIds node).filterMap (d.lead? r c) with
  | nil => simp [hleads, Survey.conclude, Parse.isComplete, more] at complete
  | cons first rest => exact Parse.best_mem first rest

theorem parseAt_finds (plain : d.tree.IsPlain) (node : Nat) (r : Reader) (c : Context S E M)
    (more : r.canRead = true) : d.Finds node r c (d.parseAt node r c) := by
  -- Without redirects the parse goes down the tree.
  induction hrank : d.tree.size - node using Nat.strongRecOn generalizing node r c with
  | ind rank ih =>
    subst hrank
    have ih' : ∀ id ∈ d.tree.childIds node, ∀ (after : Reader) (c : Context S E M),
        after.canRead = true → d.Finds id after c (d.parseAt id after c) := by
      intro id hid after c more
      have horder := Tree.lt_of_mem_childIds hid
      exact ih (d.tree.size - id) (by omega) id after c more rfl
    have clean : ∀ q ∈ (d.tree.childIds node).filterMap (d.lead? r c),
        q.isComplete = true → q.errors = [] := by
      intro q hq hcomplete
      obtain ⟨id, hid, hlead⟩ := List.mem_filterMap.1 hq
      exact (first_of_lead plain (ih' id hid) hlead hcomplete).1
    constructor
    · intro places below hroute
      obtain ⟨place, others, id, p, -, here, hlead, hcomplete⟩ := hroute.exists_lead plain ih'
      have hmem : p ∈ (d.tree.childIds node).filterMap (d.lead? r c) :=
        List.mem_filterMap.2 ⟨id, List.mem_of_getElem? here, hlead⟩
      obtain ⟨q, hq⟩ := Option.isSome_iff_exists.1
        (List.find?_isSome.2 ⟨p, hmem, hcomplete⟩)
      rw [parseAt_eq_of_find? plain clean hq]
      exact List.find?_some hq
    · intro hcomplete
      have hmem := parseAt_mem_of_isComplete plain more hcomplete
      obtain ⟨q, hq⟩ := Option.isSome_iff_exists.1
        (List.find?_isSome.2 ⟨_, hmem, hcomplete⟩)
      rw [parseAt_eq_of_find? plain clean hq]
      have hqcomplete := List.find?_some hq
      rw [List.find?_filterMap, Option.bind_eq_some_iff] at hq
      obtain ⟨id, hfind, hlead⟩ := hq
      obtain ⟨-, place, hplace, hid, hbefore⟩ := List.find?_eq_some_iff_getElem.1 hfind
      have here : (d.tree.childIds node)[place]? = some id :=
        List.getElem?_eq_some_iff.2 ⟨hplace, hid⟩
      obtain ⟨hclean, places, below, hchain, hroute, hfirst⟩ :=
        first_of_lead plain (ih' id (List.mem_of_getElem? here)) hlead hqcomplete
      refine ⟨hclean, place :: places, below, hroute node place here, hchain, ?_⟩
      intro others c' hother
      obtain ⟨place', others', id', p', rfl, here', hlead', hcomplete'⟩ :=
        hother.exists_lead plain ih'
      obtain ⟨hplace', hid'⟩ := List.getElem?_eq_some_iff.1 here'
      rcases Nat.lt_trichotomy place place' with hlt | rfl | hgt
      · exact .inr (.rel hlt)
      · obtain rfl := Option.some.inj (here.symm.trans here')
        exact (hfirst node place others' c' here hother).cons place
      · -- A route through an earlier child would have been found there.
        have hnone := hbefore place' hgt
        rw [hid', hlead'] at hnone
        simp [hcomplete'] at hnone

/-- Where parsers keep the text, the last node of a route ends at the end of the text, and
each of them but the first starts before it. -/
theorem Route.stop_eq (h : d.Route node r c places below) (keeps : d.tree.KeepsText)
    (hr : r.isOnBoundary = true) :
    ∃ first rest, below.nodes = c.nodes ++ first :: rest ∧ first.range.start = r.cursor ∧
      (∃ v, (first :: rest).getLast? = some v ∧ v.range.stop = r.totalSize) ∧
      ∀ v ∈ rest, v.range.start < r.totalSize := by
  induction h with
  | @last _ _ r c child taken here offered takes atEnd =>
    obtain ⟨hlookup, hlabel, -⟩ := offered
    have hkeeps := keeps _ _ _ hlookup hlabel
    have hle := hkeeps.cursor_le takes hr
    rw [Bool.eq_false_iff, ne_eq, Reader.canRead_iff, Reader.totalSize, hkeeps.input_eq takes,
      ← Reader.totalSize] at atEnd
    refine ⟨⟨child.id, taken.range⟩, [], child.visit_nodes c taken, rfl,
      ⟨⟨child.id, taken.range⟩, rfl, ?_⟩, by simp⟩
    change taken.after.cursor = r.totalSize
    omega
  | @further _ _ _ r c _ child taken here offered takes space beforeEnd _ ih =>
    obtain ⟨hlookup, hlabel, -⟩ := offered
    have hinput := (keeps _ _ _ hlookup hlabel).input_eq takes
    obtain ⟨first, rest, hnodes, hstart, hlast, hrest⟩ :=
      ih (Reader.isOnBoundary_pastSeparator space)
    simp only [Reader.totalSize, Reader.pastSeparator, hinput] at hstart hlast hrest
    rw [Reader.canReadBytes_iff, Reader.totalSize, hinput] at beforeEnd
    refine ⟨⟨child.id, taken.range⟩, first :: rest, ?_, rfl, ?_, ?_⟩
    · rw [hnodes, child.visit_nodes, List.append_assoc]
      rfl
    · rwa [List.getLast?_cons_cons]
    · rintro v hv
      obtain rfl | hv := List.mem_cons.1 hv
      · rw [hstart]
        exact beforeEnd
      · exact hrest v hv

/-- A route for a whole command line. -/
def LineRoute (d : Dispatcher S E M) (input : String) (source : S) (places : List Nat)
    (below : Context S E M) : Prop :=
  d.Route Tree.root (.ofString input) (.start source input Tree.root 0) places below

/-- In a tree without redirects, a line that is not empty is parsed completely exactly if
there is a route for it from the root, and then the visited nodes are those of the first route
in the order of places, and no error is recorded. Where parsers keep the text, routes end at
the end of the line, and none of their nodes but the first starts there. -/
theorem isComplete_iff_exists_route (d : Dispatcher S E M) (input : String) (source : S)
    (plain : d.tree.IsPlain) (nonempty : input ≠ "") :
    ((d.parse input source).isComplete = true ↔
      ∃ places below, d.LineRoute input source places below) ∧
    ((d.parse input source).isComplete = true →
      (d.parse input source).errors = [] ∧
      ∃ places below, d.LineRoute input source places below ∧
        (d.parse input source).chain = .single below ∧
        below.nodes.map ParsedNode.node = d.tree.along Tree.root places ∧
        ∀ others c', d.LineRoute input source others c' → NoLater places others) ∧
    (d.tree.KeepsText → ∀ places below, d.LineRoute input source places below →
      (∃ v, below.nodes.getLast? = some v ∧ v.range.stop = Text.size input) ∧
        ∀ v ∈ below.nodes.tail, v.range.start < Text.size input) := by
  obtain ⟨hcomplete, hfirst⟩ := d.parseAt_finds plain Tree.root (.ofString input)
    (.start source input Tree.root 0) (Reader.canRead_ofString nonempty)
  refine ⟨⟨?_, ?_⟩, ?_, ?_⟩
  · intro h
    obtain ⟨-, places, below, hroute, -⟩ := hfirst h
    exact ⟨places, below, hroute⟩
  · rintro ⟨places, below, hroute⟩
    exact hcomplete places below hroute
  · intro h
    obtain ⟨hclean, places, below, hroute, hchain, hle⟩ := hfirst h
    exact ⟨hclean, places, below, hroute, hchain, hroute.nodes_eq, hle⟩
  · intro keeps places below hroute
    obtain ⟨first, rest, hnodes, -, hlast, hrest⟩ :=
      hroute.stop_eq keeps (Reader.isOnBoundary_ofString input)
    rw [show below.nodes = first :: rest from hnodes]
    exact ⟨hlast, hrest⟩

/-- `set` with a word behind it, or with `x` and then `y`. -/
def wordOrPair : Dispatcher Unit Unit Unit where
  tree := (((Tree.empty.addNode 0 (Sprout.literal "set").toNode).addNode 1
    (Sprout.argument "value" StandardParser.word.toParser).toNode).addNode 1
    (Sprout.literal "x").toNode).addNode 3 (Sprout.literal "y").toNode
  config := {}

/-- The word comes first and takes the `x`, but leaves the `y`. -/
theorem isComplete_set_x_y : wordOrPair.tree.IsPlain ∧ "set x y" ≠ "" ∧
    (wordOrPair.parse "set x y" ()).isComplete = true := by
  have plain : wordOrPair.tree.IsPlain :=
    (((Tree.isPlain_empty.addNode 0 rfl).addNode 1 rfl).addNode 1 rfl).addNode 3 rfl
  refine ⟨plain, by decide, ?_⟩
  have set : (Label.literal "set" : Label Unit Unit Unit).take
      (.start () "set x y" Tree.root 0) (.ofString "set x y") =
        .ok ⟨none, ⟨"set x y", 3⟩, by decide⟩ := rfl
  have first : wordOrPair.tree.Offers () (⟨1, _, _⟩ : Offspring Unit Unit Unit) := ⟨rfl, rfl, rfl⟩
  have second : wordOrPair.tree.Offers () (⟨3, _, _⟩ : Offspring Unit Unit Unit) := ⟨rfl, rfl, rfl⟩
  have third : wordOrPair.tree.Offers () (⟨4, _, _⟩ : Offspring Unit Unit Unit) := ⟨rfl, rfl, rfl⟩
  exact (isComplete_iff_exists_route wordOrPair "set x y" () plain (by decide)).1.2
    ⟨[0, 1, 0], _, .further rfl first set (by decide) (by decide)
      (.further rfl second rfl (by decide) (by decide) (.last rfl third rfl (by decide)))⟩

/-- Reads nothing and puts an empty text in the place of the one that it is given. -/
def eraser : ArgumentParser Unit Unit Unit where
  parse _ _ := (.ok (.bool true), .ofString "")

/-- An argument under the root. -/
def erasing : Dispatcher Unit Unit Unit where
  tree := Tree.empty.addNode 0 (Sprout.argument "a" eraser).toNode
  config := {}

/-- With nothing left to read, the parse of `x` is complete, though nothing has taken the
`x`. -/
theorem not_stop_eq_erasing : erasing.tree.IsPlain ∧
    (erasing.parse "x" ()).isComplete = true ∧
    ¬∃ places below, erasing.LineRoute "x" () places below ∧
      ∃ v, below.nodes.getLast? = some v ∧ v.range.stop = Text.size "x" := by
  refine ⟨Tree.isPlain_empty.addNode 0 rfl, by decide +kernel, ?_⟩
  have erases : ∀ {place : Nat} {c : Context Unit Unit Unit} {child : Offspring Unit Unit Unit}
      {taken : Taken (.ofString "x")}, (erasing.tree.childIds Tree.root)[place]? = some child.id →
      erasing.tree.Offers () child → child.label.take c (.ofString "x") = .ok taken →
        taken.after = .ofString "" := by
    rintro place c ⟨id, node, label⟩ taken here ⟨hlookup, hlabel, -⟩ takes
    obtain rfl : id = 1 := List.mem_singleton.1 (List.mem_of_getElem? here)
    have hnode : (Sprout.argument "a" eraser).toNode = node := Option.some.inj hlookup
    obtain rfl : .argument "a" eraser none = label :=
      Option.some.inj ((congrArg Node.label hnode).trans hlabel)
    obtain ⟨value, moved, hparse, -, hafter⟩ := Label.exists_of_take_argument takes
    obtain rfl : Reader.ofString "" = moved := (Prod.mk.inj hparse).2
    exact hafter
  rintro ⟨places, below, hroute, v, hlast, hstop⟩
  cases hroute with
  | @last _ _ _ _ child taken here offered takes atEnd =>
    rw [child.visit_nodes] at hlast
    obtain rfl := Option.some.inj hlast
    have hcursor : taken.after.cursor = 1 := hstop
    rw [erases here offered takes] at hcursor
    cases hcursor
  | further here offered takes space _ _ =>
    rw [erases here offered takes] at space
    cases space

end Dispatcher
end Dispatch
