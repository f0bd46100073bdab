import Dispatch.Proofs.Manager.AliasFailure
import Dispatch.Proofs.Parse.Chaining
/-!
# What a way back to the root changes

Typing a literal that leads back to the root before a command makes no difference, however
often it is typed within the limit of redirects: the line runs as the command alone does, or
fails with the same code, and completions propose the same texts at offsets that are moved
(`Transparent`). Beyond the limit nothing is run, whatever follows (`transparent_repeated`).
-/
namespace Dispatch
variable {S E M : Type} {u u' v : String}

theorem aligned_empty_iff {n n' : Nat} : Aligned u "" n n' ↔ n = Text.size u + n' := by
  have hempty : Text.size "" = 0 := rfl
  rw [Aligned, hempty, Nat.add_zero, Nat.add_comm]

/-- The names that are bound and their values, without the ranges that these were read
from. -/
def Context.values (c : Context S E M) : List (String × Value) :=
  c.arguments.map fun binding => (binding.1, binding.2.value)

/-- Executors look at the principal and the bound values only. -/
def Host.ReadsValues {m : Type → Type} (host : Host m S E M) : Prop :=
  ∀ (executor : E) (c c' : Context S E M), c.source = c'.source → c.values = c'.values →
    host.run executor c = host.run executor c'

/-- The same texts, in a range farther on. -/
def Completions.moved (completions : Completions) (n : Nat) : Completions where
  range := ⟨n + completions.range.start, n + completions.range.stop,
    Nat.add_le_add_left completions.range.ordered n⟩
  texts := completions.texts

namespace Dispatcher

/-- Two lines run the same, whatever the host does that looks at values only, or both fail
before the host is asked for anything, with errors of one kind and one code. -/
def RunsAlike (d : Dispatcher S E M) (line line' : String) (source : S) : Prop :=
  (∀ {m : Type → Type} [Monad m] [LawfulMonad m] (host : Host m S E M), host.ReadsValues →
    d.execute host line source = d.execute host line' source) ∨
  ∃ error error', d.Refuses line source error ∧ d.Refuses line' source error' ∧
    error.kind = error'.kind ∧ error.id? = error'.id?

/-- What stands before a line makes no difference but to offsets. -/
structure Transparent (d : Dispatcher S E M) (before line : String) (source : S) : Prop where
  runs : d.RunsAlike (before ++ line) line source
  completions : ∀ cursor,
    d.completionsAt (d.parse (before ++ line) source) (Text.size before + cursor) =
      (d.completionsAt (d.parse line source) cursor).moved (Text.size before)

variable {d : Dispatcher S E M} {line line' : String} {source : S}

/-! ## Running -/

/-- Parses in which no redirect changes the principal run alike if they have come to the
same. -/
theorem runsAlike_of_isDirect (direct : (d.parse line source).IsDirect)
    (direct' : (d.parse line' source).IsDirect)
    (complete : (d.parse line source).isComplete = (d.parse line' source).isComplete)
    (executor : (d.parse line source).chain.last.executor =
      (d.parse line' source).chain.last.executor)
    (values : (d.parse line source).chain.last.values =
      (d.parse line' source).chain.last.values)
    (code : (d.parse line source).stuckError.id = (d.parse line' source).stuckError.id) :
    d.RunsAlike line line' source := by
  cases hcomplete : (d.parse line' source).isComplete with
  | false =>
    rw [hcomplete] at complete
    refine .inr ⟨_, _, refuses_of_not_isComplete complete, refuses_of_not_isComplete hcomplete,
      rfl, ?_⟩
    simp only [CommandError.id?, code]
  | true =>
    rw [hcomplete] at complete
    cases hexecutor : (d.parse line' source).chain.last.executor with
    | none =>
      rw [hexecutor] at executor
      exact .inr ⟨_, _, (refuses_iff direct).2 (Parse.verdict_of_executor_none complete executor _),
        (refuses_iff direct').2 (Parse.verdict_of_executor_none hcomplete hexecutor _), rfl, rfl⟩
    | some runs =>
      rw [hexecutor] at executor
      refine .inl fun host reads => ?_
      rw [execute_of_isDirect host direct, execute_of_isDirect host direct',
        Parse.verdict_of_executor_some complete executor,
        Parse.verdict_of_executor_some hcomplete hexecutor]
      exact reads runs _ _ rfl values

end Dispatcher

/-! ## Completing -/

/-- Completions that ask the same node, at offsets that differ by the lengths of two
beginnings. -/
def CompletionPoint.Aligned (u u' : String) (p p' : CompletionPoint) : Prop :=
  p.parent = p'.parent ∧ Dispatch.Aligned u u' p.start p'.start

namespace Context
variable {c c' : Context S E M} {nodes nodes' : List ParsedNode} {cursor cursor' : Nat}

theorem pointWithin_aligned (hstart : Aligned u u' c.range.start c'.range.start)
    (h : List.Forall₂ (ParsedNode.Aligned u u') nodes nodes')
    (hcursor : Aligned u u' cursor cursor') (previous : Nat) :
    (c.pointWithin cursor previous nodes).Aligned u u'
      (c'.pointWithin cursor' previous nodes') := by
  induction h generalizing previous with
  | nil => exact ⟨rfl, hstart⟩
  | @cons visited visited' rest rest' hvisited _ ih =>
    obtain ⟨hnode, hfirst, hlast⟩ := hvisited
    have hwithin : (visited.range.start ≤ cursor ∧ cursor ≤ visited.range.stop) ↔
        (visited'.range.start ≤ cursor' ∧ cursor' ≤ visited'.range.stop) := by
      simp only [Aligned] at hcursor hfirst hlast
      omega
    rw [pointWithin, pointWithin]
    by_cases hin : visited'.range.start ≤ cursor' ∧ cursor' ≤ visited'.range.stop
    · rw [if_pos hin, if_pos (hwithin.2 hin)]
      exact ⟨rfl, hfirst⟩
    · rw [if_neg hin, if_neg (hin ∘ hwithin.1), hnode]
      exact ih visited'.node

theorem pointAfter_aligned (hroot : c.root = c'.root)
    (hstart : Aligned u u' c.range.start c'.range.start)
    (h : List.Forall₂ (ParsedNode.Aligned u u') c.nodes c'.nodes)
    (hinput : Aligned u u' (Text.size c.input) (Text.size c'.input)) :
    c.pointAfter.Aligned u u' c'.pointAfter := by
  have hlast := List.rel_reverse h
  rw [pointAfter, pointAfter, List.getLast?_eq_head?_reverse, List.getLast?_eq_head?_reverse]
  generalize c.nodes.reverse = nodes, c'.nodes.reverse = nodes' at hlast
  cases hlast with
  | nil => exact ⟨hroot, hstart⟩
  | @cons visited visited' _ _ hvisited _ =>
    obtain ⟨hnode, -, hstop⟩ := hvisited
    refine ⟨hnode, ?_⟩
    simp only [Aligned, List.head?_cons] at hstop hinput ⊢
    omega

/-- In contexts that have visited the same nodes, completions ask the same one. -/
theorem completionPoint_aligned (hroot : c.root = c'.root)
    (hstart : Aligned u u' c.range.start c'.range.start)
    (hstop : Aligned u u' c.range.stop c'.range.stop)
    (h : List.Forall₂ (ParsedNode.Aligned u u') c.nodes c'.nodes)
    (hinput : Aligned u u' (Text.size c.input) (Text.size c'.input))
    (hcursor : Aligned u u' cursor cursor') :
    (c.completionPoint cursor []).1.Aligned u u' (c'.completionPoint cursor' []).1 ∧
      (c.completionPoint cursor []).2 = c ∧ (c'.completionPoint cursor' []).2 = c' := by
  have hpast : c.range.stop < cursor ↔ c'.range.stop < cursor' := by
    simp only [Aligned] at hstop hcursor
    omega
  rw [completionPoint, completionPoint]
  by_cases hbeyond : c'.range.stop < cursor'
  · rw [if_pos hbeyond, if_pos (hpast.2 hbeyond)]
    exact ⟨pointAfter_aligned hroot hstart h hinput, rfl, rfl⟩
  · rw [if_neg hbeyond, if_neg (hbeyond ∘ hpast.1), hroot]
    exact ⟨pointWithin_aligned hstart h hcursor c'.root, rfl, rfl⟩

end Context

/-- Behind another text, a cut at offsets that are moved gives the same. -/
theorem Text.slice?_append (s t : String) (start stop : Nat) :
    slice? (s ++ t) (size s + start) (size s + stop) = slice? t start stop := by
  have hle : size s + start ≤ size s + stop ↔ start ≤ stop := Nat.add_le_add_iff_left
  have hlength : size s + stop - (size s + start) = stop - start := by omega
  rw [slice?, slice?, String.toList_append, hlength, if_congr hle rfl rfl, size,
    dropBytes?_byteSize_add]

/-- A standard label without a completer proposes the same in all contexts. -/
theorem Label.proposals_eq {label : Label S E M} (standard : label.IsStandard)
    (completer : label.completer? = none) (c c' : Context S E M) (typed : String) :
    label.proposals c typed = label.proposals c' typed := by
  cases label with
  | literal text => rfl
  | argument name parser own =>
    obtain ⟨p, rfl⟩ := standard
    obtain rfl : own = none := completer
    rfl

namespace Tree
variable {t : Tree S E M} {name : String} {x id : Nat} {node : Node S E M}

/-- What is proposed under a node that is not under the literal depends on the principal
only. -/
theorem LeadsBack.proposals_eq (h : t.LeadsBack name x node) (hid : ¬t.Under x id)
    {c c' : Context S E M} (hsource : c.source = c'.source) (typed : String) :
    ((t.childIds id).flatMap fun i => (t.node? i).elim [] fun n => n.proposals c typed) =
      (t.childIds id).flatMap fun i => (t.node? i).elim [] fun n => n.proposals c' typed := by
  refine List.flatMap_congr fun i hi => ?_
  cases hfound : t.node? i with
  | none => rfl
  | some found =>
    have hlabel : ∀ label, found.label = some label →
        label.proposals c typed = label.proposals c' typed := by
      intro label hlabel
      by_cases hroot : id = root
      · subst hroot
        obtain ⟨word, same, hliteral⟩ := h.commands i hi
        obtain rfl := Option.some.inj (hfound.symm.trans hliteral.lookup)
        obtain rfl := Option.some.inj (hlabel.symm.trans hliteral.label)
        rfl
      · have hunder := h.not_under_child hroot hid hi
        obtain ⟨standard, completer⟩ := h.standard i found label hunder hfound hlabel
        exact Label.proposals_eq standard completer c c' typed
    simp only [Option.elim_some, Node.proposals, hsource]
    cases htag : found.label with
    | none => rfl
    | some label => simp only [hlabel label htag]

end Tree

namespace Dispatcher
variable {d : Dispatcher S E M} {line name word : String} {source : S} {x c : Nat}
  {node found : Node S E M}

/-- A line that starts with a command visits nodes, and none of them under the literal that
leads back. -/
theorem visits_of_opens (h : d.tree.LeadsBack name x node)
    (opens : d.tree.Opens line source word c found) (hword : word ≠ "") (hne : c ≠ x) :
    (d.parse line source).chain.outer.nodes ≠ [] ∧
      (d.parse line source).chain.outer.range.isEmpty = false ∧
      ∀ v ∈ (d.parse line source).chain.outer.nodes, ¬d.tree.Under x v.node := by
  have hderives : d.Derives source line Tree.root 0 0 (d.parse line source).chain.outer
      (d.parse line source).chain.inner :=
    d.parseAt_derives (Reader.isOnBoundary_ofString line) Tree.root source
  obtain ⟨tail, hline, hspaces, htail⟩ :=
    Reader.exists_endsWord (Reader.isOnBoundary_ofString line)
  rw [Reader.rest?_ofString, Option.some_inj, opens.peekWord_eq] at hline
  rw [opens.peekWord_eq] at hspaces
  have hroot := Tree.root_lt_of_mem_childIds opens.literal.child
  have hunder := h.not_under_command opens.literal.child hne
  obtain ⟨⟨rest, hnodes⟩, hstop⟩ := visits_word h.hasLiterals opens.literal hspaces hline htail
    opens.use (h.plain c found hunder opens.literal.lookup)
  refine ⟨by simp [hnodes], isEmpty_range_of_le hword hstop, fun v hv => ?_⟩
  refine (h.standardBelow.of_isChain hderives.outer.path ?_ v hv).2
  simpa [hnodes] using ⟨Nat.ne_of_gt hroot, hunder⟩

/-- The parse `q` of a line, and a parse that goes on from some contexts with `p`, behind a text
`u`, with what `q` has come to: the contexts `level` and `level'` have visited the same nodes, none
of them under `x`, and bound the same values. -/
structure Resumes (d : Dispatcher S E M) (u line : String) (x : Nat)
    (doors : List (Context S E M)) (p q : Parse S E M) (level level' : Context S E M) : Prop where
  doors : ∀ door ∈ doors, door.IsDoor (Text.size u)
  chain : p.chain = .single level
  chain' : q.chain = .single level'
  readers : Abreast u "" line p.reader q.reader
  errors : List.Forall₂ (fun e e' => e.1 = e'.1 ∧ e.2.Abreast u "" line e'.2) p.errors q.errors
  source_eq : level.source = level'.source
  input_eq : level.input = u ++ line
  input_eq' : level'.input = line
  root_eq : level.root = Tree.root
  root_eq' : level'.root = Tree.root
  visited : List.Forall₂ (ParsedNode.Aligned u "") level.nodes level'.nodes
  outside : ∀ v ∈ level'.nodes, ¬d.tree.Under x v.node
  arguments : List.Forall₂ (ParsedArgument.Aligned u "") level.arguments level'.arguments
  executor : level.executor = level'.executor
  start : Aligned u "" level.range.start level'.range.start
  stop : Aligned u "" level.range.stop level'.range.stop
  nonempty : level'.range.isEmpty = false

/-- A line that starts with a command resumes behind the words that lead back to the root. -/
theorem exists_resumes (h : d.tree.LeadsBack name x node) (token : IsToken name)
    (use : node.canUse source = true) (opens : d.tree.Opens line source word c found)
    (hword : word ≠ "") (hne : c ≠ x) {n : Nat} (hlimit : n ≤ d.config.maxRedirectDepth) :
    ∃ doors p level level',
      d.parse (Text.repeated name n ++ line) source = Parse.within doors p ∧
      d.Resumes (Text.repeated name n) line x doors p (d.parse line source) level level' := by
  obtain ⟨doors, p, -, hdoors, hparse, habreast, hderived, hinput⟩ :=
    parse_repeated h token use opens hne hlimit
  obtain ⟨hnodes, hrange, houtside⟩ := visits_of_opens h opens hword hne
  have hderives : d.Derives source line Tree.root 0 0 (d.parse line source).chain.outer
      (d.parse line source).chain.inner :=
    d.parseAt_derives (Reader.isOnBoundary_ofString line) Tree.root source
  have hderived' := hderives.outer
  have hinput' : (d.parse line source).chain.outer.input = line :=
    (d.parseAt_yields Tree.root (.ofString line) _).outer_input_eq
  obtain ⟨⟨below, below', level, level', hchain, hchain', hlevels⟩, hreaders, herrors⟩ := habreast
  rw [hchain'] at hnodes hrange houtside hderived' hinput'
  rw [hchain] at hderived hinput
  have hbelow : level.nodes = below := hlevels.nodes
  have hbelow' : level'.nodes = below' := hlevels.nodes'
  have hvisited := hlevels.visited
  have hne' : below ≠ [] := by
    rintro rfl
    exact hnodes (hbelow'.trans (List.forall₂_nil_left_iff.1 hvisited))
  obtain ⟨hexecutor, hstop⟩ := hlevels.latest hne'
  exact ⟨doors, p, level, level', hparse, {
    doors := hdoors
    chain := hchain
    chain' := hchain'
    readers := hreaders
    errors := herrors
    source_eq := hlevels.source
    input_eq := hinput
    input_eq' := hinput'
    root_eq := hderived.root_eq
    root_eq' := hderived'.root_eq
    visited := hbelow ▸ hbelow' ▸ hvisited
    outside := houtside
    arguments := hlevels.arguments
    executor := hexecutor
    start := by
      have hstart : level.range.start = Text.size (Text.repeated name n) := hderived.start_eq
      have hstart' : level'.range.start = 0 := hderived'.start_eq
      rw [aligned_empty_iff, hstart, hstart', Nat.add_zero]
    stop := hstop
    nonempty := hrange }⟩

namespace Resumes
variable {doors : List (Context S E M)} {p q : Parse S E M} {level level' : Context S E M}

theorem values_eq (h : d.Resumes u line x doors p q level level') :
    level.values = level'.values := by
  have harguments := h.arguments
  rw [Context.values, Context.values]
  generalize level.arguments = these, level'.arguments = those at harguments
  induction harguments with
  | nil => rfl
  | cons hfirst _ ih =>
    obtain ⟨hname, hvalue, -⟩ := hfirst
    rw [List.map_cons, List.map_cons, hname, hvalue, ih]

/-- No context covers nothing. -/
theorem isEmpty_range (h : d.Resumes u line x doors p q level level') :
    (p.within doors).chain.outer.range.isEmpty = false := by
  have houter : (p.within doors).chain.outer ∈ (p.within doors).chain.levels :=
    List.mem_cons_self ..
  rw [Parse.levels_within, h.chain, List.mem_append] at houter
  rcases houter with hdoor | hlevel
  · exact (h.doors _ hdoor).nonempty
  · have hnonempty := h.nonempty
    have hstart := h.start
    have hstop := h.stop
    rw [List.mem_singleton.1 hlevel]
    simp only [Chain.single, Span.isEmpty, beq_eq_false_iff_ne, Aligned] at hnonempty hstart hstop ⊢
    omega

/-- No redirect takes a parse that resumes another one to other principals. -/
theorem isDirect (h : d.Resumes u line x doors p q level level') : (p.within doors).IsDirect := by
  intro door hdoor
  rw [Parse.levels_within, h.chain] at hdoor
  have hmem : door ∈ doors := by simpa [Chain.levels, Chain.single] using hdoor
  exact ⟨(h.doors door hmem).modifier, (h.doors door hmem).forks⟩

theorem runsAlike (h : d.Resumes u line x doors p (d.parse line source) level level')
    (hparse : d.parse (u ++ line) source = p.within doors) :
    d.RunsAlike (u ++ line) line source := by
  have hlast : (p.within doors).chain.last = level := by
    rw [Parse.last_within, h.chain]
    rfl
  have hlast' : (d.parse line source).chain.last = level' := by
    rw [h.chain']
    rfl
  have hrange' : (d.parse line source).chain.outer.range.isEmpty = false := by
    rw [h.chain']
    exact h.nonempty
  apply runsAlike_of_isDirect
  · exact hparse ▸ h.isDirect
  · exact Parse.isDirect_single h.chain'
  · rw [hparse, Parse.isComplete, Parse.isComplete]
    exact congrArg not h.readers.canRead_eq
  · rw [hparse, hlast, hlast', h.executor]
  · rw [hparse, hlast, hlast', h.values_eq]
  · rw [hparse]
    exact Parse.id_stuckError_eq (h.errors.imp fun _ _ he => he.2.id_eq) h.isEmpty_range hrange'

/-- The same node is asked for completions, and it is not under the literal. -/
theorem completionPoint (h : d.Resumes u line x doors p q level level') (hx : x ≠ Tree.root)
    (cursor : Nat) :
    ((p.within doors).chain.completionPoint (Text.size u + cursor)).1.Aligned u ""
        (q.chain.completionPoint cursor).1 ∧
      ((p.within doors).chain.completionPoint (Text.size u + cursor)).2.source =
        (q.chain.completionPoint cursor).2.source ∧
      ¬d.tree.Under x (q.chain.completionPoint cursor).1.parent := by
  have hbeyond : ∀ door ∈ doors, door.range.stop < Text.size u + cursor := fun door hdoor =>
    Nat.lt_add_right cursor (h.doors door hdoor).before
  have hinput : Aligned u "" (Text.size level.input) (Text.size level'.input) := by
    rw [h.input_eq, h.input_eq', Text.size_append, aligned_empty_iff]
  have hcursor : Aligned u "" (Text.size u + cursor) cursor := aligned_empty_iff.2 rfl
  obtain ⟨hpoint, hlevel, hlevel'⟩ := Context.completionPoint_aligned
    (h.root_eq.trans h.root_eq'.symm) h.start h.stop h.visited hinput hcursor
  have hparent := (Context.completionPoint_parent cursor level' []).2
  rw [hlevel'] at hparent
  rw [Parse.completionPoint_within hbeyond, h.chain, h.chain']
  refine ⟨hpoint, ?_, ?_⟩
  · change (level.completionPoint _ []).2.source = (level'.completionPoint _ []).2.source
    rw [hlevel, hlevel', h.source_eq]
  · change ¬d.tree.Under x (level'.completionPoint _ []).1.parent
    rcases hparent with hroot | ⟨v, hv, hroot⟩
    · rw [hroot, h.root_eq']
      exact Tree.not_under_root hx
    · rw [hroot]
      exact h.outside v hv

/-- Completions are the same but for offsets. -/
theorem completionsAt_eq (h : d.Resumes u line x doors p q level level')
    (leads : d.tree.LeadsBack name x node) (cursor : Nat) :
    d.completionsAt (p.within doors) (Text.size u + cursor) =
      (d.completionsAt q cursor).moved (Text.size u) := by
  have hinput : (p.within doors).reader.input = u ++ line := h.readers.input
  have hinput' : q.reader.input = line := h.readers.input'.trans String.empty_append
  have hcursor : min (Text.size u + cursor) (Text.size (u ++ line)) =
      Text.size u + min cursor (Text.size line) := by
    rw [Text.size_append]
    omega
  obtain ⟨⟨hparent, hstart⟩, hsource, houtside⟩ :=
    h.completionPoint leads.ne_root (min cursor (Text.size line))
  rw [completionsAt, completionsAt]
  simp only [hinput, hinput', hcursor]
  have hmin : ∀ cursor', min ((p.within doors).chain.completionPoint
      (Text.size u + min cursor (Text.size line))).1.start (Text.size u + cursor') =
        Text.size u +
          min (q.chain.completionPoint (min cursor (Text.size line))).1.start cursor' := by
    intro cursor'
    rw [aligned_empty_iff.1 hstart, Nat.add_min_add_left]
  simp only [Completions.moved, hmin, Text.slice?_append, hparent,
    leads.proposals_eq houtside hsource]

end Resumes

/-- A literal that leads back to the root and a command beside it. -/
def backBeside (back command : String) : Dispatcher Principal Nat Unit where
  tree := Tree.empty.afterAll [.register ((Sprout.literal back).redirectTo Tree.root),
    .register ((Sprout.literal command).executes 1)]
  config := {}

/-- The node that leads back. -/
def backNode (back : String) : Node Principal Nat Unit :=
  ((Sprout.literal back).redirectTo Tree.root).toNode

/-- The node of the command. -/
def commandNode (command : String) : Node Principal Nat Unit :=
  ((Sprout.literal command).executes 1).toNode

theorem leadsBack_of_nodes {t : Tree Principal Nat Unit} (grown : t.Grown) {back command : String}
    (nodes : t.nodes = #[Node.root.withChildren [1, 2], backNode back, commandNode command]) :
    t.LeadsBack back 1 (backNode back) ∧ t.RootLiteral command 2 (commandNode command) := by
  have hroot : t.node? 0 = some (Node.root.withChildren [1, 2]) := by
    rw [Tree.node?, nodes]
    rfl
  have hback : t.node? 1 = some (backNode back) := by
    rw [Tree.node?, nodes]
    rfl
  have hcommand : t.node? 2 = some (commandNode command) := by
    rw [Tree.node?, nodes]
    rfl
  have hchildren : t.childIds Tree.root = [1, 2] := Tree.childIds_eq hroot
  have literal : t.RootLiteral back 1 (backNode back) := ⟨by simp [hchildren], hback, rfl⟩
  have literal' : t.RootLiteral command 2 (commandNode command) :=
    ⟨by simp [hchildren], hcommand, rfl⟩
  have found : ∀ id node, ¬t.Under 1 id → t.node? id = some node →
      node = Node.root.withChildren [1, 2] ∨ node = commandNode command := by
    intro id node hid hnode
    obtain _ | _ | _ | n := id
    · exact .inl (Option.some.inj (hnode.symm.trans hroot))
    · exact absurd .refl hid
    · exact .inr (Option.some.inj (hnode.symm.trans hcommand))
    · simp [Tree.node?, nodes] at hnode
  refine ⟨⟨grown, ?_, literal, rfl, rfl, rfl, ?_, ?_⟩, literal'⟩
  · intro c hc
    rw [hchildren] at hc
    rcases List.mem_pair.1 hc with rfl | rfl
    · exact ⟨back, _, literal⟩
    · exact ⟨command, _, literal'⟩
  · intro id node hid hnode
    obtain rfl | rfl := found id node hid hnode
    · rfl
    · rfl
  · intro id node label hid hnode hlabel
    obtain rfl | rfl := found id node hid hnode
    · simp [Node.root] at hlabel
    · obtain rfl := Option.some.inj hlabel
      exact ⟨trivial, rfl⟩

theorem leadsBack_backBeside (back command : String)
    (nodes : (backBeside back command).tree.nodes =
      #[Node.root.withChildren [1, 2], backNode back, commandNode command]) :
    (backBeside back command).tree.LeadsBack back 1 (backNode back) ∧
      (backBeside back command).tree.RootLiteral command 2 (commandNode command) :=
  leadsBack_of_nodes ⟨_, rfl⟩ nodes

/-- Words that lead back to the root make no difference before a line that starts with another
command, as long as they are no more than the limit of redirects. Beyond it the parse is stuck
with one error, which says so. -/
theorem transparent_repeated (h : d.tree.LeadsBack name x node) (token : IsToken name)
    (use : node.canUse source = true) (opens : d.tree.Opens line source word c found)
    (hword : word ≠ "") (hne : c ≠ x) (n : Nat) :
    (n ≤ d.config.maxRedirectDepth → d.Transparent (Text.repeated name n) line source) ∧
    (d.config.maxRedirectDepth < n →
      (d.parse (Text.repeated name n ++ line) source).isComplete = false ∧
      ∃ error, (d.parse (Text.repeated name n ++ line) source).errors = [(x, error)] ∧
        error.id = Diagnostic.redirectLimit.id) := by
  constructor
  · intro hlimit
    obtain ⟨doors, p, level, level', hparse, hresumes⟩ :=
      exists_resumes h token use opens hword hne hlimit
    refine ⟨hresumes.runsAlike hparse, fun cursor => ?_⟩
    rw [hparse]
    exact hresumes.completionsAt_eq h cursor
  · intro hlimit
    have hr := Reader.rest?_ofString (Text.repeated name n ++ line)
    rw [String.toList_append] at hr
    exact parseAt_repeated_of_limit h token use hr (Nat.zero_le _) (by omega)

theorem transparent_again_say :
    (backBeside "again" "say").tree.LeadsBack "again" 1 (backNode "again") ∧ IsToken "again" ∧
    (backNode "again").canUse (.named "guest") = true ∧
    (backBeside "again" "say").tree.Opens "say" (.named "guest") "say" 2 (commandNode "say") ∧
    "say" ≠ "" ∧ 2 ≠ 1 ∧
    (backBeside "again" "say").Transparent (Text.repeated "again" 64) "say" (.named "guest") ∧
    ((backBeside "again" "say").parse (Text.repeated "again" 65 ++ "say")
      (.named "guest")).isComplete = false := by
  obtain ⟨leads, say⟩ := leadsBack_backBeside "again" "say" rfl
  have token : IsToken "again" := ⟨by decide, by simp [separator]⟩
  have opens : (backBeside "again" "say").tree.Opens "say" (.named "guest") "say" 2
      (commandNode "say") := ⟨by decide, say, rfl⟩
  refine ⟨leads, token, rfl, opens, by decide, by decide, ?_, ?_⟩
  · exact (transparent_repeated leads token rfl opens (by decide) (by decide) 64).1 (by decide)
  · exact ((transparent_repeated leads token rfl opens (by decide) (by decide) 65).2 (by decide)).1

/-- Lines that are stuck with different codes do not run alike. -/
theorem not_runsAlike_of_id_ne (h : (d.parse line source).isComplete = false)
    (h' : (d.parse line' source).isComplete = false)
    (hid : (d.parse line source).stuckError.id ≠ (d.parse line' source).stuckError.id) :
    ¬d.RunsAlike line line' source := by
  have hrun := (refuses_of_not_isComplete h).execute_eq willing
  have hrun' := (refuses_of_not_isComplete h').execute_eq willing
  rintro (hsame | ⟨error, error', hrefuses, hrefuses', -, hcode⟩)
  · rw [hsame willing fun _ _ _ _ _ => rfl, hrun'] at hrun
    have herror := CommandError.malformed.inj (Except.error.inj hrun)
    exact hid (congrArg SyntaxError.id herror.symm)
  · rw [hrefuses.execute_eq willing] at hrun
    rw [hrefuses'.execute_eq willing] at hrun'
    rw [Except.error.inj hrun, Except.error.inj hrun'] at hcode
    exact hid (Option.some.inj hcode)

/-- Of a separator behind the command nothing is read. -/
theorem parse_separator_backBeside (back command : String)
    (nodes : (backBeside back command).tree.nodes =
      #[Node.root.withChildren [1, 2], backNode back, commandNode command])
    (hname : ∀ c ∈ command.toList, c ≠ separator) (source : Principal) :
    (backBeside back command).parse (command ++ " ") source =
      .ended (firstVisit (command ++ " ") source 2 (commandNode command) command)
        ⟨command ++ " ", Text.size command⟩ := by
  obtain ⟨leads, literal⟩ := leadsBack_backBeside back command nodes
  exact parse_separator leads.hasLiterals literal hname String.toList_append rfl rfl

/-- The line starts with the command, and it makes a difference that the literal which leads
back to the root stands once before it. -/
def MattersOnce (back command line : String) : Prop :=
  (backBeside back command).tree.LeadsBack back 1 (backNode back) ∧
  (backNode back).canUse (.named "guest") = true ∧
  (backBeside back command).tree.Opens line (.named "guest") command 2 (commandNode command) ∧
  1 ≤ (backBeside back command).config.maxRedirectDepth ∧
  ¬(backBeside back command).RunsAlike (Text.repeated back 1 ++ line) line (.named "guest")

/-- An empty literal leaves the first context empty, so what is unknown behind it is a command
and not an argument. The same goes for an empty command on its own, and a literal with a
separator in it is never read. -/
theorem mattersOnce_blank : MattersOnce "" "foo" "foo " ∧ MattersOnce "a b" "foo" "foo " ∧
    MattersOnce "again" "" " " := by
  have hfoo : ∀ c ∈ "foo".toList, c ≠ separator := by simp [separator]
  refine ⟨?_, ?_, ?_⟩
  · obtain ⟨leads, foo⟩ := leadsBack_backBeside "" "foo" rfl
    refine ⟨leads, rfl, ⟨by decide, foo, rfl⟩, by decide, ?_⟩
    have hback : (Text.repeated "" 1 ++ "foo ").toList = "".toList ++ separator :: "foo ".toList :=
      rfl
    obtain ⟨inner, hinner, hline⟩ := parse_redirect leads.hasLiterals leads.literal (by simp) hback
      rfl leads.redirect (by decide)
    rw [parseAt_eq] at hinner
    subst hinner
    have hline' : (backBeside "" "foo").parse "foo " (.named "guest") = _ :=
      parse_separator_backBeside "" "foo" rfl hfoo (.named "guest")
    apply not_runsAlike_of_id_ne
    · rw [hline]
      rfl
    · rw [hline']
      rfl
    · rw [hline, hline']
      decide
  · obtain ⟨leads, foo⟩ := leadsBack_backBeside "a b" "foo" rfl
    refine ⟨leads, rfl, ⟨by decide, foo, rfl⟩, by decide, ?_⟩
    have hline : (backBeside "a b" "foo").parse (Text.repeated "a b" 1 ++ "foo ")
        (.named "guest") = _ := parseAt_of_eligible_nil rfl
    have hline' : (backBeside "a b" "foo").parse "foo " (.named "guest") = _ :=
      parse_separator_backBeside "a b" "foo" rfl hfoo (.named "guest")
    apply not_runsAlike_of_id_ne
    · rw [hline]
      rfl
    · rw [hline']
      rfl
    · rw [hline, hline']
      decide
  · obtain ⟨leads, blank⟩ := leadsBack_backBeside "again" "" rfl
    refine ⟨leads, rfl, ⟨by decide, blank, rfl⟩, by decide, ?_⟩
    have hback : (Text.repeated "again" 1 ++ " ").toList =
        "again".toList ++ separator :: " ".toList := rfl
    obtain ⟨inner, hinner, hline⟩ := parse_redirect leads.hasLiterals leads.literal
      (by simp [separator]) hback rfl leads.redirect (by decide)
    rw [parseAt_eq] at hinner
    subst hinner
    have hline' : (backBeside "again" "").parse " " (.named "guest") = _ :=
      parse_separator_backBeside "again" "" rfl (by simp) (.named "guest")
    apply not_runsAlike_of_id_ne
    · rw [hline]
      rfl
    · rw [hline']
      rfl
    · rw [hline, hline']
      decide

end Dispatcher
end Dispatch
