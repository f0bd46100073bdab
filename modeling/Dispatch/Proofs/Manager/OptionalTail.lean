import Dispatch.Proofs.Execution.UsageLines
import Dispatch.Proofs.Manager.FreshCommand
import Dispatch.Proofs.Reader.Alone
import Mathlib.Data.List.Forall2
/-!
# Commands with parameters

The parameters of a command are built from the last one to the first, as arguments of which
each is the only child of the one before, and an argument runs the command if only optional
parameters come behind it (`Tree.Chained`). A line is read from the first one to the last.
Where it gives texts for some of the parameters, it is parsed down the chain and ends at the
last of these, with their values bound (`Dispatcher.parseAt_chained`). So it runs the command
if the parameters that it leaves out are optional, and is incomplete otherwise
(`Manager.runs_given_parameters`).
-/
namespace Dispatch
variable {S E M : Type}

/-! ## Texts of parameters -/

namespace Parameter
variable {p : Parameter S E M} {text : String} {value : Value} {r : Reader} {tail : List Char}

/-- The text is a token that a parser of the library, other than the one that reads all that
is left, reads to its end. -/
structure Reads (p : Parameter S E M) (text : String) (value : Value) : Prop where
  token : IsToken text
  parsed : ∃ (parser : StandardParser) (moved : Reader), parser ≠ .greedy ∧
    p.parser = parser.toParser ∧ parser.parse (.ofString text) = (.ok value, moved) ∧
      moved.canRead = false

/-- What is read to its end on its own is read where it is the next word of a line. -/
theorem Reads.take (h : p.Reads text value) (c : Context S E M)
    (hrest : r.rest? = some (text.toList ++ tail)) (htail : EndsWord tail) :
    ∃ taken : Taken r, p.label.take c r = .ok taken ∧ taken.value = some value ∧
      taken.after = r.advance text.toList := by
  obtain ⟨-, parser, moved, hgreedy, hparser, hparse, hend⟩ := h
  have hown : (Reader.ofString text).rest? = some (text.toList ++ []) := by
    rw [List.append_nil, Reader.rest?_ofString]
  have hstop : moved.cursor = (Reader.ofString text).cursor + Text.byteSize text.toList := by
    obtain ⟨xs, ys, hsplit, rfl, -⟩ := parser.parse_readsAlone.taken hparse
    have hsize := congrArg Text.byteSize (Option.some.inj (hown.symm.trans hsplit))
    have hread : ¬((Reader.ofString text).advance xs).canRead = true := by simp [hend]
    rw [Reader.canRead_iff] at hread
    simp only [Reader.advance, Reader.ofString, Reader.totalSize, Text.size, Text.byteSize_append,
      Text.byteSize_nil] at hread hsize ⊢
    omega
  have hagain := (StandardParser.parse_endsWithWords hgreedy).again hown endsWord_nil hrest htail
    hparse hstop
  have hvalue : p.parser.parse c r = (.ok value, r.advance text.toList) := by
    rw [hparser]
    exact hagain
  exact ⟨_, Label.takeValue_of_advance hvalue hrest, rfl, rfl⟩

end Parameter

/-! ## The arguments of a command -/

namespace Tree
variable {t t' : Tree S E M} {executor : E} {x : Nat} {ps : List (Parameter S E M)}

/-- Below the node are the arguments of these parameters, one below the other, and nothing
else. -/
inductive Chained (t : Tree S E M) (executor : E) : Nat → List (Parameter S E M) → Prop
  | last {x : Nat} (bare : t.childIds x = []) : t.Chained executor x []
  | next {x y : Nat} {p : Parameter S E M} {rest : List (Parameter S E M)} {children : List Nat}
    (only : t.childIds x = [y]) (lookup : t.node? y = some (p.node executor rest children))
    (below : t.Chained executor y rest) : t.Chained executor x (p :: rest)

/-- The arguments of parameters are grafted as such a chain. -/
theorem chained_graftAll (executor : E) (ps : List (Parameter S E M)) (bare : t.childIds x = [])
    (hlt : x < t.size) :
    (t.graftAll x (Command.parameterChain executor ps)).Chained executor x ps := by
  induction ps generalizing t x with
  | nil =>
    rw [Command.parameterChain, graftAll]
    exact .last bare
  | cons p rest ih =>
    have hnone : ∀ name, t.findChild? x name = none := by simp [findChild?, bare]
    have hplant : t.graftAll x (Command.parameterChain executor (p :: rest)) =
        (t.addNode x (p.node executor rest [])).graftAll t.size
          (Command.parameterChain executor rest) := by
      rw [Command.parameterChain_cons, graftAll, graftAll, graft_of_findChild?_eq_none (hnone _)]
      rfl
    rw [hplant]
    have hlt' := t.lt_size_addNode x (p.node executor rest [])
    have hnew := t.node?_addNode_size x (p.node executor rest [])
    obtain ⟨children, hself⟩ := node?_graftAll_self hlt' (Command.parameterChain executor rest)
    rw [hnew, Option.map_some] at hself
    have hbefore := node?_graftAll_of_lt hlt hlt' (Command.parameterChain executor rest)
    refine .next ?_ hself (ih (childIds_eq hnew) hlt')
    rw [childIds, hbefore, ← childIds, childIds_addNode hlt, if_pos rfl, bare, List.nil_append]

/-- A chain is there wherever its nodes are. -/
theorem Chained.of_node?_eq (h : t.Chained executor x ps)
    (same : ∀ id, x ≤ id → id < t.size → t'.node? id = t.node? id) (hlt : x < t.size) :
    t'.Chained executor x ps := by
  induction h with
  | last bare =>
    refine .last ?_
    rw [childIds, same _ (Nat.le_refl _) hlt]
    exact bare
  | @next x y p rest children only lookup _ ih =>
    obtain ⟨hxy, hylt⟩ := lt_of_mem_childIds (only ▸ List.mem_singleton_self y)
    refine .next ?_ ((same y (Nat.le_of_lt hxy) hylt).trans lookup)
      (ih (fun id hid => same id (Nat.le_trans (Nat.le_of_lt hxy) hid)) hylt)
    rw [childIds, same x (Nat.le_refl _) hlt]
    exact only

end Tree

/-! ## Lines down the chain -/

namespace Context

/-- The values that are bound, by their names. -/
def bindings (c : Context S E M) : List (String × Value) :=
  c.arguments.map fun argument => (argument.1, argument.2.value)

theorem bind_of_not_mem {name : String} {arguments : List (String × ParsedArgument)}
    (h : name ∉ arguments.map (·.1)) (argument : ParsedArgument) :
    bind name argument arguments = arguments ++ [(name, argument)] := by
  induction arguments with
  | nil => rfl
  | cons first rest ih =>
    rw [List.map_cons, List.mem_cons, not_or] at h
    rw [bind, if_neg (Ne.symm h.1), ih h.2, List.cons_append]

theorem map_fst_bindings (c : Context S E M) : c.bindings.map (·.1) = c.arguments.map (·.1) := by
  rw [bindings, List.map_map]
  rfl

end Context

/-- Behind the argument of a parameter, a name that was not bound is bound to its value. -/
theorem Offspring.bindings_visit {p : Parameter S E M} {id : Nat} {node : Node S E M}
    {c : Context S E M} {r : Reader} {taken : Taken r} {value : Value}
    (hvalue : taken.value = some value) (hkey : p.key ∉ c.bindings.map (·.1)) :
    ((⟨id, node, p.label⟩ : Offspring S E M).visit c taken).bindings =
      c.bindings ++ [(p.key, value)] := by
  rw [Context.map_fst_bindings] at hkey
  simp only [Context.bindings, Offspring.visit_arguments, Parameter.label, Label.bindTo, hvalue,
    Context.withArgument, Context.bind_of_not_mem hkey, List.map_append]
  rfl

/-- A child that stops behind a word matches. -/
theorem Offspring.matches_of_endsWord {child : Offspring S E M} {c : Context S E M} {r : Reader}
    {taken : Taken r} {tail : List Char} (htake : child.label.take c r = .ok taken)
    (hbehind : taken.after.rest? = some tail) (htail : EndsWord tail) : child.Matches c taken := by
  refine ⟨htake, ?_⟩
  cases tail with
  | nil => simp [Taken.isCutOff, Reader.canRead_of_rest?_nil hbehind]
  | cons first rest =>
    have hpeek : taken.after.peek = some separator := by
      rw [Reader.peek, Reader.rest_eq_of_rest? hbehind, List.head?_cons, htail first (by simp)]
    simp [Taken.isCutOff, hpeek]

namespace Dispatcher
variable {d : Dispatcher S E M} {executor : E} {x : Nat} {given left : List (Parameter S E M)}
  {readings : List (String × Value)} {r : Reader} {c : Context S E M} {cs : List Char}

/-- The bindings that texts of parameters lead to. -/
def bound (given : List (Parameter S E M)) (readings : List (String × Value)) :
    List (String × Value) :=
  List.zipWith (fun p reading => (p.key, reading.2)) given readings

/-- The parse of an input ends behind the last of these texts, with their values bound. -/
structure EndsBehind (p : Parse S E M) (input : String) (source : S) (executor : E)
    (left : List (Parameter S E M)) (bindings : List (String × Value)) : Prop where
  complete : p.isComplete = true
  input_eq : p.reader.input = input
  ended : ∃ below, p.chain = .single below ∧ below.source = source ∧
    below.executor = Command.executorBefore executor left ∧ below.bindings = bindings

/-- Where another word is ahead, there are two bytes to read at least. -/
theorem canReadBytes_of_wordsBehind {word : String} {words : List String} (hword : word ≠ "")
    (h : r.rest? = some (Tree.wordsBehind (word :: words))) : r.canReadBytes 2 = true := by
  have hsize := Reader.byteSize_of_rest? h
  have hpos := Text.size_pos hword
  have hone : separator.utf8Size = 1 := by decide
  simp only [Tree.wordsBehind, List.flatMap_cons, List.cons_append, Text.byteSize_cons, hone,
    Text.byteSize_append] at hsize
  rw [Text.size] at hpos
  rw [Reader.canReadBytes_iff]
  omega

section
variable {y : Nat} {p : Parameter S E M} {rest : List (Parameter S E M)} {children : List Nat}
  (only : d.tree.childIds x = [y]) (lookup : d.tree.node? y = some (p.node executor rest children))
include only lookup

/-- The only argument below a node is the only child that is tried. -/
theorem eligible_chained (r : Reader) (source : S) :
    d.tree.eligible x r source = [⟨y, p.node executor rest children, p.label⟩] := by
  have htried : d.tree.tried? r source y = some ⟨y, p.node executor rest children, p.label⟩ :=
    Tree.tried?_eq_some_iff.2 ⟨rfl, lookup, rfl, rfl, rfl⟩
  rw [Tree.eligible_eq, only, List.filterMap_cons, htried, List.filterMap_nil]

/-- A text for a parameter is read by its argument, and its value is bound. The parse goes on
behind it if there is more than a separator. -/
theorem exists_visit {text : String} {value : Value} {tail : List Char}
    (reads : p.Reads text value) (hrest : r.rest? = some (text.toList ++ tail))
    (htail : EndsWord tail) (hkey : p.key ∉ c.bindings.map (·.1)) :
    ∃ (visited : Context S E M) (after : Reader), visited.source = c.source ∧
      visited.executor = Command.executorBefore executor rest ∧
      visited.bindings = c.bindings ++ [(p.key, value)] ∧ after.input = r.input ∧
      after.rest? = some tail ∧ d.parseAt x r c =
        if after.canReadBytes 2 then d.parseAt y after.pastSeparator visited
        else .ended visited after := by
  obtain ⟨taken, htake, hvalue, hafter⟩ := reads.take c hrest htail
  have hbehind : taken.after.rest? = some tail := hafter ▸ Reader.rest?_advance hrest
  let child : Offspring S E M := ⟨y, p.node executor rest children, p.label⟩
  have hmatches : child.Matches c taken := Offspring.matches_of_endsWord htake hbehind htail
  refine ⟨child.visit c taken, taken.after, child.visit_source c taken, rfl,
    Offspring.bindings_visit hvalue hkey, hafter ▸ rfl, hbehind, ?_⟩
  have helig := eligible_chained only lookup r c.source
  refine parseAt_of_eligible_singleton helig (.inl ?_)
  rw [trial_of_matches hmatches]
  by_cases hbytes : taken.after.canReadBytes 2 = true
  · simp [child, Reader.canRead_of_canReadBytes hbytes, Parameter.node, hbytes]
  · simp [child, Parameter.node, hbytes]

end

/-- A line with a text for each of the first parameters of a chain is parsed down to the last
of these. -/
theorem parseAt_chained (reads : List.Forall₂ (fun p reading => p.Reads reading.1 reading.2) given
    readings) (hne : readings ≠ []) (chained : d.tree.Chained executor x (given ++ left))
    (hrest : r.rest? = some cs) (hcs : separator :: cs = Tree.wordsBehind (readings.map (·.1)))
    (keys : (c.bindings.map (·.1) ++ given.map Parameter.key).Nodup) :
    EndsBehind (d.parseAt x r c) r.input c.source executor left
      (c.bindings ++ bound given readings) := by
  induction reads generalizing x r c cs with
  | nil => exact absurd rfl hne
  | @cons p reading given readings hread hreads ih =>
    obtain ⟨text, value⟩ := reading
    obtain ⟨y, children, only, lookup, below⟩ : ∃ y children, d.tree.childIds x = [y] ∧
        d.tree.node? y = some (p.node executor (given ++ left) children) ∧
        d.tree.Chained executor y (given ++ left) := by
      cases chained with
      | next only lookup below => exact ⟨_, _, only, lookup, below⟩
    obtain rfl : cs = text.toList ++ Tree.wordsBehind (readings.map (·.1)) := by
      simpa [Tree.wordsBehind] using hcs
    obtain ⟨hkey, hkeys⟩ : p.key ∉ c.bindings.map (·.1) ∧
        ((c.bindings ++ [(p.key, value)]).map (·.1) ++ given.map Parameter.key).Nodup := by
      rw [List.map_cons] at keys
      refine ⟨fun hmem => ?_, by simpa using keys⟩
      exact (List.nodup_append.1 keys).2.2 _ hmem _ List.mem_cons_self rfl
    obtain ⟨visited, after, hsource, hexecutor, hbindings, hinput, hbehind, hparse⟩ :=
      exists_visit only lookup hread hrest (Tree.endsWord_wordsBehind _) hkey
    rw [hparse]
    cases hreads with
    | nil =>
      -- Nothing is left behind the last text.
      have hread := Reader.canRead_of_rest?_nil hbehind
      have hbytes : ¬after.canReadBytes 2 = true := fun hbytes =>
        Bool.false_ne_true (hread.symm.trans (Reader.canRead_of_canReadBytes hbytes))
      rw [if_neg hbytes]
      exact ⟨by simp [hread], hinput, visited, rfl, hsource, hexecutor, hbindings⟩
    | @cons q next given readings hnext hrest' =>
      rw [if_pos (canReadBytes_of_wordsBehind hnext.token.ne_empty hbehind)]
      obtain ⟨complete, hinput', last, hchain, hsource', hexecutor', hbound⟩ :=
        ih (List.cons_ne_nil _ _) below (Reader.rest?_pastSeparator hbehind) rfl
          (hbindings ▸ hkeys)
      refine ⟨complete, hinput'.trans hinput, last, hchain, hsource'.trans hsource, hexecutor', ?_⟩
      rw [hbound, hbindings, List.append_assoc]
      rfl

end Dispatcher

/-! ## Lines of a command -/

namespace Manager
variable {m m' : Manager S E M} {config : Config} {command : Command S E M} {executor : E}
  {name : String} {x : Nat} {source : S} {given left : List (Parameter S E M)}
  {readings : List (String × Value)}

/-- Below the alias of a command without subcommands are the arguments of its parameters. -/
theorem Plants.chained (h : m.Plants (command.sprout name) m' x) (bare : command.subcommands = [])
    (hexecutor : command.executor = some executor) :
    m'.tree.Chained executor x command.parameters := by
  have hchildren : (command.sprout name).children =
      Command.parameterChain executor command.parameters := by
    rw [Command.sprout_children, bare, hexecutor, Command.sproutsOf, List.append_nil]
    rfl
  obtain ⟨t, hbare, hlt, hlt', hsame⟩ := h.exists_graft
  rw [hchildren] at hlt' hsame
  exact (Tree.chained_graftAll executor command.parameters hbare hlt).of_node?_eq hsame hlt'

/-- A line that starts with the alias of a command is parsed down to the last parameter for
which it gives a text. -/
theorem Plants.endsBehind (h : m.Plants (command.sprout name) m' x)
    (bare : command.subcommands = []) (hexecutor : command.executor = some executor)
    (permitted : command.canExecute source = true) (split : command.parameters = given ++ left)
    (reads : List.Forall₂ (fun p reading => p.Reads reading.1 reading.2) given readings)
    (keys : (given.map Parameter.key).Nodup) :
    Dispatcher.EndsBehind (m'.dispatcher.parse (Tree.spell name (readings.map (·.1))) source)
      (Tree.spell name (readings.map (·.1))) source executor left
      (Dispatcher.bound given readings) := by
  obtain ⟨halias, node, hx, hplain, hruns, huse⟩ := h.exists_literal
  have hallowed := (huse source).trans permitted
  have hchained := h.chained bare hexecutor
  rw [split] at hchained
  have hline := Tree.toList_spell halias.ne_empty (readings.map (·.1))
  cases reads with
  | nil =>
    have hword := Dispatcher.parse_word (d := m'.dispatcher) h.literals hx halias.ne_separator
      hallowed
    rw [show Tree.spell name (List.map Prod.fst []) = name from rfl, hword]
    refine ⟨Parse.isComplete_word .., rfl, _, rfl, rfl, hruns.trans ?_, rfl⟩
    rw [hexecutor, split]
    rfl
  | @cons p reading given readings hread hreads =>
    obtain ⟨ahead, hahead⟩ : ∃ ahead, separator :: String.toList ahead =
        Tree.wordsBehind ((reading :: readings).map (·.1)) :=
      ⟨String.ofList _, by rw [String.toList_ofList]; rfl⟩
    have hspell : Tree.spell name ((reading :: readings).map (·.1)) = name ++ (" " ++ ahead) := by
      rw [← String.toList_inj, hline, Text.toList_line, hahead]
    have hne : ahead ≠ "" := by
      rintro rfl
      simp [Tree.wordsBehind, hread.token.ne_empty] at hahead
    have hparse := (Dispatcher.parse_line (d := m'.dispatcher) h.literals hx halias.ne_separator hne
      hspell hallowed).1 hplain
    rw [hparse]
    exact Dispatcher.parseAt_chained (.cons hread hreads) (List.cons_ne_nil _ _) hchained
      (hspell ▸ Reader.rest?_line name ahead) hahead keys

/-- A command without subcommands is run by a line that starts with its alias and goes on with
texts of its first parameters, if it can do without the others, and then with the values of
these texts bound. Otherwise the line is incomplete. -/
theorem runs_given_parameters [Capable S] {allowed : Registration S E M → Prop} {owner : String}
    {draft : CommandDraft S E M} {primary : String} {secondary : List String} {mapping : Mapping}
    (reachable : Reachable config allowed m) (built : draft.build = .ok command)
    (bare : command.subcommands = []) (keys : (command.parameters.map Parameter.key).Nodup)
    (registered : m.registerCommand owner command primary secondary = .ok (m', mapping))
    (fresh : m.registry.IsFree mapping.primary) (permitted : command.canExecute source = true)
    (split : command.parameters = given ++ left)
    (reads : List.Forall₂ (fun p reading => p.Reads reading.1 reading.2) given readings) :
    (left.all Parameter.isOptional = true → ∃ executor context,
      command.executor = some executor ∧ context.source = source ∧
        context.bindings = Dispatcher.bound given readings ∧
          m'.dispatcher.Runs (Tree.spell mapping.primary (readings.map (·.1))) source executor
            context) ∧
    (left.all Parameter.isOptional = false →
      m'.dispatcher.Refuses (Tree.spell mapping.primary (readings.map (·.1))) source
        (.incomplete (Tree.spell mapping.primary (readings.map (·.1))))) := by
  have hplants := plants_of_registerCommand reachable.coherent registered fresh
  obtain ⟨executor, hexecutor⟩ := (CommandDraft.describes_of_build built).exists_executor bare
  rw [split, List.map_append, List.nodup_append] at keys
  obtain ⟨complete, hinput, below, hchain, hsource, hruns, hbound⟩ :=
    hplants.endsBehind bare hexecutor permitted split reads keys.1
  rw [Command.executorBefore] at hruns
  constructor
  · intro hoptional
    rw [if_pos hoptional] at hruns
    exact ⟨executor, below.onBehalfOf source, hexecutor, rfl, hbound,
      Dispatcher.runs_of_chain complete hchain hruns⟩
  · intro hrequired
    rw [if_neg (Bool.eq_false_iff.1 hrequired)] at hruns
    have hrefuses := Dispatcher.refuses_of_chain complete hchain hruns
    rwa [hinput] at hrefuses

/-- `warp` to a place, and how often if need be. -/
def warpDraft : CommandDraft Principal Nat Unit where
  parameters := [{ key := "place", parser := StandardParser.word.toParser },
    { key := "count", parser := StandardParser.anyInteger.toParser, isOptional := true }]
  executor := some 7

/-- What is built from it. -/
def warp : Command Principal Nat Unit := ⟨warpDraft.parameters, [], some 7, none, none, none⟩

/-- `warp home` runs, and `warp` alone is incomplete. -/
theorem runs_given_parameters_warp : ∃ m mapping, warpDraft.build = .ok warp ∧
    (empty {}).registerCommand "demo" warp "warp" [] = .ok (m, mapping) ∧
    (∃ context, context.bindings = [("place", .string "home")] ∧
      m.dispatcher.Runs "warp home" (.named "guest") 7 context) ∧
    m.dispatcher.Refuses "warp" (.named "guest") (.incomplete "warp") := by
  have start : Reachable {} (fun _ => True) (empty {} : Manager Principal Nat Unit) := .refl
  have built : warpDraft.build = .ok warp := rfl
  obtain ⟨m, registered⟩ : ∃ m, (empty {}).registerCommand "demo" warp "warp" [] =
      .ok (m, ⟨"demo", "warp", ["warp"], 1, {}⟩) := ⟨_, rfl⟩
  have keys : (warp.parameters.map Parameter.key).Nodup := by decide
  have permitted : warp.canExecute (.named "guest") = true := rfl
  have place : warp.parameters[0].Reads "home" (.string "home") :=
    ⟨⟨by decide, by simp [separator]⟩, .word, ⟨"home", 4⟩, by simp, rfl, rfl, by decide⟩
  have reads : List.Forall₂ (fun p (reading : String × Value) => p.Reads reading.1 reading.2)
      [warp.parameters[0]] [("home", .string "home")] := .cons place .nil
  have first : warp.parameters = [warp.parameters[0]] ++ warp.parameters.tail := rfl
  have nothing : warp.parameters = [] ++ warp.parameters := rfl
  refine ⟨m, _, built, registered, ?_, ?_⟩
  · obtain ⟨executor, context, hexecutor, -, hbound, hruns⟩ := (runs_given_parameters start built
      rfl keys registered rfl permitted first reads).1 rfl
    obtain rfl := Option.some.inj hexecutor
    exact ⟨context, hbound, hruns⟩
  · exact (runs_given_parameters start built rfl keys registered rfl permitted nothing
      .nil).2 rfl

end Manager
end Dispatch
