import Dispatch.Proofs.Manager.OptionalTail
import Dispatch.Proofs.Tree.Alike
import Mathlib.Data.List.DropRight
/-!
# What help says of a command with parameters

Help shows a command without subcommands by one line: its alias, and behind it the parameters,
in square brackets where the command can run without them. The line is compact. It goes on
behind a parameter as long as the command cannot stop there, and where it can, only the next
parameter is still shown (`Command.partsBehind`). So of the optional parameters at the end of
a command only the first one is shown, or the first two if there are no others
(`Manager.Plants.help?_eq`).
-/
namespace Dispatch
variable {S E M : Type}

/-! ## Parts of a line -/

theorem Tree.bracketed_ne_empty (isOptional : Bool) (key : String) :
    bracketed isOptional ("<" ++ key ++ ">") ≠ "" := by
  rw [bracketed]
  split <;> simp

namespace Command
variable {ps rest : List (Parameter S E M)} {p : Parameter S E M}

/-- How a parameter with these behind it is shown: by its key, in square brackets if the
command can run without it, that is, if it and all behind it are optional. -/
def part (p : Parameter S E M) (rest : List (Parameter S E M)) : String :=
  Tree.bracketed ((p :: rest).all Parameter.isOptional) ("<" ++ p.key ++ ">")

/-- How parameters are shown one behind the other. -/
def parts : List (Parameter S E M) → List String
  | [] => []
  | p :: rest => part p rest :: parts rest

/-- What a compact line shows of the parameters behind a node. -/
def partsBehind : List (Parameter S E M) → List String
  | [] => []
  | p :: rest =>
    part p rest :: if (p :: rest).all Parameter.isOptional then [] else partsBehind rest

/-- How many parameters there are up to the last one that the command needs. -/
def needed (ps : List (Parameter S E M)) : Nat := (ps.rdropWhile Parameter.isOptional).length

@[simp] theorem length_parts (ps : List (Parameter S E M)) : (parts ps).length = ps.length := by
  induction ps with
  | nil => rfl
  | cons p rest ih => rw [parts, List.length_cons, ih, List.length_cons]

theorem part_ne_empty (p : Parameter S E M) (rest : List (Parameter S E M)) : part p rest ≠ "" :=
  Tree.bracketed_ne_empty _ p.key

/-- The brackets can be told from the key. -/
theorem part_eq_brackets_iff : part p rest = "[<" ++ p.key ++ ">]" ↔
    (p :: rest).all Parameter.isOptional = true := by
  rw [part, Tree.bracketed, ← String.toList_inj]
  split
  · next hoptional => simp [hoptional]
  · next hrequired => simp [hrequired]

theorem needed_of_all (h : ps.all Parameter.isOptional = true) : needed ps = 0 := by
  rw [needed, List.rdropWhile_eq_nil_iff.2 (List.all_eq_true.1 h), List.length_nil]

theorem needed_cons (h : (p :: rest).all Parameter.isOptional = false) :
    needed (p :: rest) = needed rest + 1 := by
  have hdrop : (p :: rest).rdropWhile Parameter.isOptional =
      p :: rest.rdropWhile Parameter.isOptional := by
    rw [List.rdropWhile, List.rdropWhile, List.reverse_cons, List.dropWhile_append]
    by_cases hrest : rest.all Parameter.isOptional = true
    · have hp : p.isOptional = false := by simpa [hrest] using h
      have hnone : rest.reverse.dropWhile Parameter.isOptional = [] := by simpa using hrest
      simp [hnone, hp]
    · have hsome : rest.reverse.dropWhile Parameter.isOptional ≠ [] := by simpa using hrest
      simp [hsome]
  rw [needed, hdrop, List.length_cons, needed]

/-- The parameters behind a node are shown up to the last one that the command needs, and the
one behind this. -/
theorem partsBehind_eq_take (ps : List (Parameter S E M)) :
    partsBehind ps = (parts ps).take (needed ps + 1) := by
  induction ps with
  | nil => rfl
  | cons p rest ih =>
    rw [partsBehind, parts, List.take_succ_cons]
    by_cases h : (p :: rest).all Parameter.isOptional = true
    · rw [if_pos h, needed_of_all h, List.take_zero]
    · rw [if_neg h, needed_cons (Bool.eq_false_iff.2 h), ih]

/-- The first parameter is shown together with what is shown behind its node. -/
theorem part_cons_partsBehind (p : Parameter S E M) (rest : List (Parameter S E M)) :
    part p rest :: partsBehind rest =
      (parts (p :: rest)).take (max (needed (p :: rest)) 1 + 1) := by
  have hneeded : max (needed (p :: rest)) 1 = needed rest + 1 := by
    by_cases h : (p :: rest).all Parameter.isOptional = true
    · have hrest : rest.all Parameter.isOptional = true := by
        rw [List.all_cons, Bool.and_eq_true] at h
        exact h.2
      rw [needed_of_all h, needed_of_all hrest]
      rfl
    · rw [needed_cons (Bool.eq_false_iff.2 h)]
      omega
  rw [hneeded, parts, List.take_succ_cons, ← partsBehind_eq_take]

theorem isSome_executorBefore (executor : E) (ps : List (Parameter S E M)) :
    (executorBefore executor ps).isSome = ps.all Parameter.isOptional := by
  rw [executorBefore]
  split <;> simp_all

end Command

/-! ## The line of a chain of arguments -/

namespace Tree
variable {t : Tree S E M} {executor : E} {x y : Nat} {p : Parameter S E M}
  {rest : List (Parameter S E M)} {children : List Nat} {line word : String}

theorem spell_cons (hline : line ≠ "") (hword : word ≠ "") (words : List String) :
    spell line (word :: words) = joinUsage line (spell word words) := by
  rw [← String.toList_inj, toList_spell hline]
  simp [joinUsage, toList_spell hword, wordsBehind]

/-- A line with only some of the words is not the line with all of them. -/
theorem spell_take_eq_iff (hline : line ≠ "") (words : List String) (n : Nat) :
    spell line (words.take n) = spell line words ↔ words.length ≤ n := by
  have hsplit : wordsBehind words = wordsBehind (words.take n) ++ wordsBehind (words.drop n) := by
    rw [wordsBehind, wordsBehind, wordsBehind, ← List.flatMap_append, List.take_append_drop]
  have hnil : wordsBehind (words.drop n) = [] ↔ words.drop n = [] := by
    cases words.drop n <;> simp [wordsBehind]
  rw [← String.toList_inj, toList_spell hline, toList_spell hline, List.append_cancel_left_eq,
    hsplit, List.self_eq_append_right, hnil, List.drop_eq_nil_iff]

/-- Arguments may be used by everyone. -/
theorem filter_isUsable_chained (only : t.childIds x = [y])
    (lookup : t.node? y = some (p.node executor rest children)) (source : S) :
    (t.childIds x).filter (t.isUsable source) = [y] := by
  have huse : t.isUsable source y = true := isUsable_eq lookup
  rw [only, List.filter_singleton, huse]
  rfl

/-- The compact line of an argument of a chain. -/
theorem compactUsage_chained (lookup : t.node? y = some (p.node executor rest children))
    (below : t.Chained executor y rest) (source : S) (isOptional : Bool) :
    t.compactUsage source isOptional y =
      some (spell (bracketed isOptional ("<" ++ p.key ++ ">")) (Command.partsBehind rest)) := by
  induction below generalizing p children isOptional with
  | last bare =>
    rw [compactUsage_eq lookup rfl, bare]
    rfl
  | @next y z q rest grandchildren only lookup' _ ih =>
    have hshown := bracketed_ne_empty isOptional p.key
    have hruns : (p.node executor (q :: rest) children).executor.isSome =
        (q :: rest).all Parameter.isOptional := Command.isSome_executorBefore executor _
    have hpart : t.usageOf z = "<" ++ q.key ++ ">" := by
      rw [usageOf, lookup']
      rfl
    rw [compactUsage_eq lookup rfl, filter_isUsable_chained only lookup', tailUsage?, hruns, hpart,
      ih lookup', Command.partsBehind, Command.part]
    by_cases hoptional : (q :: rest).all Parameter.isOptional = true
    · -- The line may end here, so the next part is the last one.
      rw [if_pos hoptional, if_pos hoptional, hoptional,
        spell_cons hshown (bracketed_ne_empty true q.key)]
      rfl
    · rw [if_neg hoptional, if_neg hoptional, Bool.eq_false_iff.2 hoptional,
        spell_cons hshown (bracketed_ne_empty false q.key)]
      rfl

/-- The only compact line below the node in front of a chain. -/
theorem smartUsage_chained {node : Node S E M} (hnode : t.node? x = some node)
    (hruns : node.executor = Command.executorBefore executor (p :: rest))
    (chained : t.Chained executor x (p :: rest)) (source : S) :
    ∃ y, t.smartUsage x source =
      [(y, spell (Command.part p rest) (Command.partsBehind rest))] := by
  cases chained with
  | @next _ y _ _ children only lookup below =>
    refine ⟨y, ?_⟩
    rw [smartUsage, hnode]
    simp only
    rw [← childIds_eq hnode, only, hruns, Command.isSome_executorBefore, List.filterMap_cons,
      compactUsage_chained lookup below]
    rfl

end Tree

/-! ## Help -/

namespace Manager
variable {m m' : Manager S E M} {config : Config} {command : Command S E M} {executor : E}
  {name : String} {mapping : Mapping} {source : S} {x : Nat}

/-- What is registered is found under all of its aliases. -/
theorem get?_of_registerDescribed {owner : String} {sprout : Sprout S E M} {secondary : List String}
    {description : Description} (hm : m.Coherent)
    (registered : m.registerDescribed owner sprout secondary description = .ok (m', mapping))
    (listed : Text.toLower name ∈ mapping.aliases) : m'.registry.get? name = some mapping := by
  obtain ⟨grant, t, x, added, hproceeds⟩ := registerDescribed_eq_ok_iff.1 registered
  obtain ⟨index, old, hregistered, -⟩ := hproceeds.registered hm
  have hrecords := hregistered.recorded
  refine hrecords.coherent.get?_eq_some_iff.2 ⟨index, ?_, listed⟩
  rw [hrecords.mappings, if_pos rfl]

/-- What help says of a command without subcommands that was planted. -/
theorem Plants.help?_eq (h : m.Plants (command.sprout mapping.primary) m' mapping.node)
    (found : m'.registry.get? name = some mapping) (bare : command.subcommands = [])
    (hexecutor : command.executor = some executor) (nonempty : command.parameters ≠ [])
    (permitted : command.canExecute source = true) :
    m'.help? source name = some ⟨mapping,
      (if command.parameters.all Parameter.isOptional then [mapping.primary] else []) ++
        [Tree.spell mapping.primary ((Command.parts command.parameters).take
          (max (Command.needed command.parameters) 1 + 1))]⟩ := by
  obtain ⟨halias, node, hx, -, hruns, huse⟩ := h.exists_literal
  have hchained := h.chained bare hexecutor
  obtain ⟨p, rest, hparameters⟩ := List.exists_cons_of_ne_nil nonempty
  rw [hexecutor, Option.bind_some] at hruns
  rw [hparameters] at hchained hruns ⊢
  obtain ⟨y, hlines⟩ := Tree.smartUsage_chained hx.lookup hruns hchained source
  have hbare : node.executor.isSome = (p :: rest).all Parameter.isOptional := by
    rw [hruns, Command.isSome_executorBefore]
  have hline : Tree.joinUsage mapping.primary
      (Tree.spell (Command.part p rest) (Command.partsBehind rest)) =
        Tree.spell mapping.primary ((Command.parts (p :: rest)).take
          (max (Command.needed (p :: rest)) 1 + 1)) := by
    rw [← Command.part_cons_partsBehind,
      Tree.spell_cons halias.ne_empty (Command.part_ne_empty p rest)]
  rw [help?, found, Option.bind_eq_bind, Option.bind_some, hx.lookup]
  simp only [Option.bind_eq_bind, Option.bind_some, huse source, permitted, if_true, hlines,
    List.map_cons, List.map_nil, hx.name_eq, hline, hbare, List.isEmpty_cons, Bool.or_false]
  split <;> rfl

/-- The command runs on a line with texts of its first parameters exactly if it can do without
the others. -/
theorem Plants.runs_iff {given left : List (Parameter S E M)} {readings : List (String × Value)}
    (h : m.Plants (command.sprout name) m' x) (bare : command.subcommands = [])
    (hexecutor : command.executor = some executor) (permitted : command.canExecute source = true)
    (split : command.parameters = given ++ left) (keys : (given.map Parameter.key).Nodup)
    (reads : List.Forall₂ (fun p reading => p.Reads reading.1 reading.2) given readings) :
    (∃ runs context, m'.dispatcher.Runs (Tree.spell name (readings.map (·.1))) source runs
      context) ↔ left.all Parameter.isOptional = true := by
  obtain ⟨complete, -, below, hchain, -, hruns, -⟩ :=
    h.endsBehind bare hexecutor permitted split reads keys
  rw [Command.executorBefore] at hruns
  constructor
  · rintro ⟨runs, context, hrun⟩
    by_contra hrequired
    rw [if_neg hrequired] at hruns
    exact hrun.not_refuses (Dispatcher.refuses_of_chain complete hchain hruns)
  · intro hoptional
    rw [if_pos hoptional] at hruns
    exact ⟨executor, _, Dispatcher.runs_of_chain complete hchain hruns⟩

/-- The last line that help shows for a command without subcommands is its alias, followed by
its parameters up to the last one that it needs, or up to the first one if it needs none, and
the one behind these. It shows all of them exactly if there are no more. Each is in square
brackets exactly if the command runs on a line that stops in front of it. -/
theorem shows_parameters_iff [Capable S] {allowed : Registration S E M → Prop} {owner : String}
    {draft : CommandDraft S E M} {primary : String} {secondary : List String}
    (reachable : Reachable config allowed m) (built : draft.build = .ok command)
    (bare : command.subcommands = []) (nonempty : command.parameters ≠ [])
    (registered : m.registerCommand owner command primary secondary = .ok (m', mapping))
    (fresh : m.registry.IsFree mapping.primary) (permitted : command.canExecute source = true)
    (listed : Text.toLower name ∈ mapping.aliases) :
    (∃ help, m'.help? source name = some help ∧ help.mapping = mapping ∧
      help.usage.getLast? = some (Tree.spell mapping.primary
        ((Command.parts command.parameters).take
          (max (Command.needed command.parameters) 1 + 1))) ∧
      (help.usage.getLast? = some (Tree.spell mapping.primary (Command.parts command.parameters)) ↔
        command.parameters.length ≤ max (Command.needed command.parameters) 1 + 1)) ∧
    ∀ (given : List (Parameter S E M)) (p : Parameter S E M) (rest : List (Parameter S E M))
      (readings : List (String × Value)), command.parameters = given ++ p :: rest →
      (given.map Parameter.key).Nodup →
      List.Forall₂ (fun p reading => p.Reads reading.1 reading.2) given readings →
      ((∃ executor context, m'.dispatcher.Runs
          (Tree.spell mapping.primary (readings.map (·.1))) source executor context) ↔
        Command.part p rest = "[<" ++ p.key ++ ">]") := by
  have hplants := plants_of_registerCommand reachable.coherent registered fresh
  have hfound := get?_of_registerDescribed reachable.coherent registered listed
  obtain ⟨executor, hexecutor⟩ := (CommandDraft.describes_of_build built).exists_executor bare
  have hhelp := hplants.help?_eq hfound bare hexecutor nonempty permitted
  have halias := hplants.exists_literal.1
  refine ⟨⟨_, hhelp, rfl, List.getLast?_concat, ?_⟩, ?_⟩
  · rw [List.getLast?_concat, Option.some.injEq, Tree.spell_take_eq_iff halias.ne_empty,
      Command.length_parts]
  · intro given p rest readings split keys reads
    rw [hplants.runs_iff bare hexecutor permitted split keys reads, Command.part_eq_brackets_iff]

/-- Help shows all of `warp`, and `warp home` runs without the count that stands in
brackets. -/
theorem shows_parameters_warp : ∃ m mapping help, warpDraft.build = .ok warp ∧
    (empty {}).registerCommand "demo" warp "warp" [] = .ok (m, mapping) ∧
    m.help? (.named "guest") "warp" = some help ∧
    help.usage.getLast? = some "warp <place> [<count>]" ∧
    ∃ executor context, m.dispatcher.Runs "warp home" (.named "guest") executor context := by
  have start : Reachable {} (fun _ => True) (empty {} : Manager Principal Nat Unit) := .refl
  have built : warpDraft.build = .ok warp := rfl
  obtain ⟨m, registered⟩ : ∃ m, (empty {}).registerCommand "demo" warp "warp" [] =
      .ok (m, ⟨"demo", "warp", ["warp"], 1, {}⟩) := ⟨_, rfl⟩
  have permitted : warp.canExecute (.named "guest") = true := rfl
  have listed : Text.toLower "warp" ∈ ["warp"] := by decide +kernel
  have place : warp.parameters[0].Reads "home" (.string "home") :=
    ⟨⟨by decide, by simp [separator]⟩, .word, ⟨"home", 4⟩, by simp, rfl, rfl, by decide⟩
  obtain ⟨⟨help, hhelp, -, hlast, -⟩, hruns⟩ := shows_parameters_iff start built rfl
    (List.cons_ne_nil _ _) registered rfl permitted listed
  refine ⟨m, _, help, built, registered, hhelp, hlast.trans (by decide +kernel), ?_⟩
  exact (hruns [warp.parameters[0]] warp.parameters[1] [] [("home", .string "home")] rfl
    (by decide) (.cons place .nil)).2 (by decide +kernel)

/-- `kick` somebody, for a reason and without telling anybody if need be. -/
def kickDraft : CommandDraft Principal Nat Unit where
  parameters := [{ key := "target", parser := StandardParser.word.toParser },
    { key := "reason", parser := StandardParser.word.toParser, isOptional := true },
    { key := "silent", parser := StandardParser.bool.toParser, isOptional := true }]
  executor := some 5

/-- What is built from it. -/
def kick : Command Principal Nat Unit := ⟨kickDraft.parameters, [], some 5, none, none, none⟩

/-- Help does not show the last parameter of `kick`. -/
theorem getLast?_help_kick : ∃ m mapping help, kickDraft.build = .ok kick ∧
    (empty {}).registerCommand "demo" kick "kick" [] = .ok (m, mapping) ∧
    kick.canExecute (.named "guest") = true ∧ m.help? (.named "guest") "kick" = some help ∧
    help.usage.getLast? = some "kick <target> [<reason>]" ∧
    Tree.spell "kick" (Command.parts kick.parameters) =
      "kick <target> [<reason>] [<silent>]" := by
  have built : kickDraft.build = .ok kick := rfl
  obtain ⟨m, registered⟩ : ∃ m, (empty {}).registerCommand "demo" kick "kick" [] =
      .ok (m, ⟨"demo", "kick", ["kick"], 1, {}⟩) := ⟨_, rfl⟩
  have coherent : (empty {} : Manager Principal Nat Unit).Coherent := coherent_empty {}
  have listed : Text.toLower "kick" ∈ ["kick"] := by decide +kernel
  have permitted : kick.canExecute (.named "guest") = true := rfl
  have hhelp := (plants_of_registerCommand coherent registered rfl).help?_eq
    (get?_of_registerDescribed coherent registered listed) rfl rfl (List.cons_ne_nil _ _) permitted
  exact ⟨m, _, _, built, registered, permitted, hhelp, by decide +kernel, by decide +kernel⟩

end Manager
end Dispatch
