import Dispatch.Proofs.Manager.OptionalTail
import Dispatch.Proofs.Parse.LastWord
import Dispatch.Proofs.Reader.KeptText
import Dispatch.Proofs.Tree.Kinds
import Dispatch.Proofs.Tree.Siblings
/-!
# Subcommands beside parameters

The literals of the subcommands are siblings of the argument of the first parameter, and come
after it. A parse that ends behind an alias of a subcommand can have got there through either
of them, and the one that comes first wins. So an alias leads to its subcommand, unless the
parser of the first parameter reads it too: then it is a value of that parameter, and the
parent is what runs (`Manager.endsAt_subcommand_iff`). That it is all or nothing is for
parsers that keep the text; with another text the line could go on anywhere.
-/
namespace Dispatch
variable {S E M : Type}

/-! ## Drafts -/

namespace CommandDraft
variable {draft : CommandDraft S E M} {command : Command S E M}

/-- The drafts to which the builder leads. -/
inductive Composed : CommandDraft S E M → Prop
  | start : Composed {}
  | child {b : CommandDraft S E M} (h : Composed b) (command : Command S E M)
    (aliases : List String) : Composed (b.child command aliases)
  | parameter {b : CommandDraft S E M} (h : Composed b) (p : Parameter S E M) :
    Composed (b.parameter p)
  | executes {b : CommandDraft S E M} (h : Composed b) (executor : E) :
    Composed (b.executes executor)
  | requires {b : CommandDraft S E M} (h : Composed b) (requirement : S → Bool) :
    Composed (b.requires requirement)
  | describes {b : CommandDraft S E M} (h : Composed b) (short extended : Option String) :
    Composed { b with shortDescription := short, extendedDescription := extended }

/-- Two subcommands of a draft without a conflict have no alias in common. -/
theorem Composed.disjoint (h : Composed draft) (noConflict : draft.conflict = none) :
    draft.subcommands.Pairwise fun s s' => s.1.Disjoint s'.1 := by
  induction h with
  | start => exact .nil
  | @child b _ command aliases ih =>
    obtain ⟨hold, hnew⟩ : b.conflict = none ∧
        (aliases.map Text.toLower).find? b.usedAliases.contains = none := by
      simpa only [CommandDraft.child, Option.orElse_eq_orElse, Option.orElse_eq_or,
        Option.or_eq_none_iff] using noConflict
    refine List.pairwise_append.2 ⟨ih hold, List.pairwise_singleton _ _, ?_⟩
    rintro s hs s' hs' name hname hname'
    rw [List.mem_singleton.1 hs'] at hname'
    have hused : name ∈ b.usedAliases := List.mem_flatMap.2 ⟨s, hs, hname⟩
    exact List.find?_eq_none.1 hnew name hname' (List.contains_iff_mem.2 hused)
  | parameter _ p ih => exact ih noConflict
  | executes _ executor ih => exact ih noConflict
  | requires _ requirement ih => exact ih noConflict
  | describes _ short extended ih => exact ih noConflict

end CommandDraft

/-! ## Siblings -/

namespace Command
variable {command sub : Command S E M} {name : String} {b : Sprout S E M}
  {subcommands : List (List String × Command S E M)}

/-- Each alias of a subcommand has a sprout. -/
theorem mem_sproutsOf : b ∈ sproutsOf subcommands ↔
    ∃ aliases sub, (aliases, sub) ∈ subcommands ∧ ∃ name ∈ aliases, b = sub.sprout name := by
  induction subcommands with
  | nil => simp [sproutsOf]
  | cons first rest ih =>
    obtain ⟨aliases, sub⟩ := first
    rw [sproutsOf, List.mem_append, ih, List.mem_map]
    constructor
    · rintro (⟨name, hname, rfl⟩ | ⟨aliases', sub', hmem, hsprout⟩)
      · exact ⟨aliases, sub, List.mem_cons_self, name, hname, rfl⟩
      · exact ⟨aliases', sub', List.mem_cons_of_mem _ hmem, hsprout⟩
    · rintro ⟨aliases', sub', hmem, name, hname, rfl⟩
      obtain heq | hmem := List.mem_cons.1 hmem
      · obtain ⟨rfl, rfl⟩ := Prod.mk.inj heq
        exact .inl ⟨name, hname, rfl⟩
      · exact .inr ⟨aliases', sub', hmem, name, hname, rfl⟩

theorem sprout_label (command : Command S E M) (name : String) :
    (command.sprout name).label = .literal name := by
  cases command
  rw [sprout]
  rfl

/-- The sprouts below a command are the argument of its first parameter, if it runs something,
and the literals of its subcommands. -/
theorem mem_sprout_children (h : b ∈ (command.sprout name).children) :
    (∃ executor p rest, command.executor = some executor ∧ command.parameters = p :: rest ∧
      b = p.sprout executor rest) ∨
    ∃ aliases sub, (aliases, sub) ∈ command.subcommands ∧ ∃ other ∈ aliases,
      b = sub.sprout other := by
  rw [sprout_children, List.mem_append] at h
  obtain h | h := h
  · left
    cases hexecutor : command.executor with
    | none => simp [hexecutor] at h
    | some executor =>
      cases hparameters : command.parameters with
      | nil => simp [hexecutor, hparameters, parameterChain] at h
      | cons p rest =>
        refine ⟨executor, p, rest, rfl, rfl, ?_⟩
        simpa [hexecutor, hparameters, parameterChain_cons] using h
  · exact .inr (mem_sproutsOf.1 h)

/-- Siblings below a command of one name and one kind are the same sprout, if no two
subcommands have an alias in common. -/
theorem agree_sprout_children
    (disjoint : command.subcommands.Pairwise fun s s' => s.1.Disjoint s'.1)
    (apart : ¬(command.sprout name).HasClash) : Sprout.Agree (command.sprout name).children := by
  intro b hb c hc hname
  have hkinds : b.isLiteral = c.isLiteral := by
    by_contra hne
    refine apart ⟨([(command.sprout name).name], command.sprout name), ?_, b, hb, c, hc, ?_⟩
    · rw [Sprout.parts_eq]
      exact List.mem_cons_self
    · simpa [Sprout.clashes, Sprout.name, Sprout.isLiteral] using ⟨hname, hne⟩
  obtain ⟨executor, p, rest, hexecutor, hparameters, rfl⟩ |
    ⟨aliases, sub, hsub, other, hother, rfl⟩ := mem_sprout_children hb
  · obtain ⟨executor', p', rest', hexecutor', hparameters', rfl⟩ |
      ⟨aliases', sub', -, other', -, rfl⟩ := mem_sprout_children hc
    · obtain rfl := Option.some.inj (hexecutor.symm.trans hexecutor')
      obtain ⟨rfl, rfl⟩ := List.cons.inj (hparameters.symm.trans hparameters')
      rfl
    · rw [Sprout.isLiteral, Sprout.isLiteral, sprout_label] at hkinds
      exact absurd hkinds Bool.false_ne_true
  · obtain ⟨executor', p', rest', -, -, rfl⟩ | ⟨aliases', sub', hsub', other', hother', rfl⟩ :=
      mem_sprout_children hc
    · rw [Sprout.isLiteral, Sprout.isLiteral, sprout_label] at hkinds
      exact absurd hkinds.symm Bool.false_ne_true
    · rw [sprout_name, sprout_name] at hname
      subst hname
      -- An alias that two subcommands have is that of one subcommand.
      have hsame : (aliases, sub) = (aliases', sub') := by
        by_contra hne
        have hsymm : Std.Symm fun s s' : List String × Command S E M => s.1.Disjoint s'.1 :=
          ⟨fun _ _ h _ hname hname' => h hname' hname⟩
        exact disjoint.forall hsub hsub' hne hother hother'
      rw [(Prod.mk.inj hsame).2]

end Command

/-! ## The last word -/

/-- What a parser of the library reads on its own it takes where nothing else is ahead. -/
theorem Parameter.Reads.takesAll {p : Parameter S E M} {text : String} {value : Value}
    (h : p.Reads text value) (c : Context S E M) {r : Reader}
    (hrest : r.rest? = some text.toList) : ∃ taken : Taken r, p.label.TakesAll c taken := by
  rw [← List.append_nil text.toList] at hrest
  obtain ⟨taken, htake, -, hafter⟩ := h.take c hrest endsWord_nil
  exact ⟨taken, htake, Reader.canRead_of_rest?_nil (hafter ▸ Reader.rest?_advance hrest)⟩

namespace Command
variable {command sub : Command S E M} {primary name : String} {x y : Nat} {source : S} {r : Reader}
  {t : Tree S E M} {aliases : List String}

/-- The parser of the first parameter takes all that is ahead. -/
def Shadows (command : Command S E M) (c : Context S E M) (r : Reader) : Prop :=
  ∃ p ∈ command.parameters.head?, ∃ taken : Taken r, p.label.TakesAll c taken

/-- The parser of the first parameter, if there is one, keeps the text. -/
def ReadsText (command : Command S E M) : Prop :=
  ∀ p ∈ command.parameters.head?, p.parser.KeepsText

/-- What is tried before the literals of the subcommands: the argument of the first parameter,
if there is one. -/
inductive Precedes (t : Tree S E M) (x : Nat) (command : Command S E M) :
    List (Offspring S E M) → Prop
  | none (bare : command.parameters = []) : Precedes t x command []
  | first {p : Parameter S E M} {rest : List (Parameter S E M)} {executor : E} {z : Nat}
    {children : List Nat} (parameters : command.parameters = p :: rest)
    (runs : command.executor = some executor) (found : t.findChild? x p.key = some z) :
    Precedes t x command [⟨z, p.node executor rest children, p.label⟩]

section
variable (hword : r.peekWord = name)
include hword

/-- The literal of the subcommand is tried where its alias is ahead. -/
theorem tried?_literal {children : List Nat} (permitted : sub.canExecute source = true)
    (hnode : t.node? y = some ((sub.sprout name).toNode.withChildren children)) :
    t.tried? r source y =
      some ⟨y, (sub.sprout name).toNode.withChildren children, .literal name⟩ := by
  refine Tree.tried?_eq_some_iff.2 ⟨rfl, hnode, ?_, ?_, ?_⟩
  · rw [sprout_toNode]
    rfl
  · simp [Label.fits, hword]
  · rw [sprout_toNode]
    exact permitted

/-- The literals of other names are not. -/
theorem tried?_eq_none (h : t.Bears x (command.sprout primary).children) {c : Nat}
    (hc : c ∈ t.childIds x) (hname : t.nameOf c ≠ name)
    (hkey : ∀ p ∈ command.parameters.head?, t.nameOf c ≠ p.key) : t.tried? r source c = none := by
  obtain ⟨b, hb, children, hlookup⟩ := h.own c hc
  have hsame := Tree.nameOf_eq_name hlookup
  obtain ⟨executor, p, rest, -, hparameters, rfl⟩ | ⟨-, other, -, text, -, rfl⟩ :=
    mem_sprout_children hb
  · exact absurd hsame (hkey p (by simp [hparameters]))
  · rw [sprout_name] at hsame
    rw [sprout_toNode] at hlookup
    simp [Tree.tried?, hlookup, Label.fits, hword, hsame ▸ hname]

end

section
variable (agree : Sprout.Agree (command.sprout primary).children)
  (runs : command.executor = none → command.parameters = [])
  (member : (aliases, sub) ∈ command.subcommands) (listed : name ∈ aliases)
include agree runs member listed

/-- Where an alias of a subcommand is ahead, its literal is tried, and before it at most the
argument of the first parameter. -/
theorem exists_eligible (h : t.Bears x (command.sprout primary).children)
    (permitted : sub.canExecute source = true) (hword : r.peekWord = name) :
    ∃ y children before, Precedes t x command before ∧ t.findChild? x name = some y ∧
      t.eligible x r source =
        before ++ [⟨y, (sub.sprout name).toNode.withChildren children, .literal name⟩] := by
  have hsub : sub.sprout name ∈ (command.sprout primary).children := by
    rw [sprout_children]
    exact List.mem_append_right _ (mem_sproutsOf.2 ⟨aliases, sub, member, name, listed, rfl⟩)
  obtain ⟨y, children, hfound, hnode⟩ := h.exists_child agree hsub
  have hyname := Tree.nameOf_eq_name hnode
  rw [sprout_name] at hfound hyname
  have hy := (Tree.findChild?_eq_some hfound).1
  have htried := tried?_literal hword permitted hnode
  have hnodup : (t.childIds x).Nodup := List.Nodup.of_map _ h.distinct
  have hothers : ∀ c ∈ t.childIds x, c ≠ y → t.nameOf c ≠ name := fun c hc hcy hname =>
    hcy (h.eq_of_nameOf_eq hc hy (hname.trans hyname.symm))
  cases hparameters : command.parameters with
  | nil =>
    refine ⟨y, children, [], .none hparameters, hfound, ?_⟩
    rw [Tree.eligible_eq, Tree.filterMap_tried?_eq hnodup hy fun c hc hcy =>
      tried?_eq_none hword h hc (hothers c hc hcy) (by simp [hparameters]), htried]
    rfl
  | cons p rest =>
    obtain ⟨executor, hexecutor⟩ := Option.ne_none_iff_exists'.1 fun hnone =>
      List.cons_ne_nil p rest (hparameters.symm.trans (runs hnone))
    have hchildren : (command.sprout primary).children =
        p.sprout executor rest :: sproutsOf command.subcommands := by
      rw [sprout_children, hexecutor, hparameters]
      simp [parameterChain_cons]
    obtain ⟨z, children', later, hids, hz, hlookup⟩ :=
      (hchildren ▸ h).exists_first (hchildren ▸ agree)
    have hfirst : t.tried? r source z = some ⟨z, p.node executor rest children', p.label⟩ :=
      Tree.tried?_eq_some_iff.2 ⟨rfl, hlookup, rfl, rfl, rfl⟩
    have hyz : y ≠ z := by
      rintro rfl
      have hsame := Option.some.inj (htried.symm.trans hfirst)
      simp [Parameter.label] at hsame
    rw [hids, List.nodup_cons] at hnodup
    have hlater : y ∈ later := List.mem_of_ne_of_mem hyz (hids ▸ hy)
    have hprecedes : Precedes t x command [⟨z, p.node executor rest children', p.label⟩] :=
      .first hparameters hexecutor hz
    refine ⟨y, children, _, hprecedes, hfound, ?_⟩
    rw [Tree.eligible_eq, hids, List.filterMap_cons_some hfirst,
      Tree.filterMap_tried?_eq hnodup.2 hlater fun c hc hcy => ?_, htried]
    · rfl
    · have hchild : c ∈ t.childIds x := hids ▸ List.mem_cons_of_mem z hc
      refine tried?_eq_none hword h hchild (hothers c hchild hcy) fun q hq hname => ?_
      obtain rfl : p = q := by simpa [hparameters] using hq
      have hcz := h.eq_of_nameOf_eq hchild (Tree.findChild?_eq_some hz).1
        (hname.trans (Tree.nameOf_eq_name hlookup).symm)
      exact hnodup.1 (hcz ▸ hc)

/-- A parse with nothing but an alias of a subcommand ahead ends behind the literal of the
subcommand, or behind the argument of the first parameter if that takes the alias. -/
theorem exists_endsAt {d : Dispatcher S E M} {c : Context S E M}
    (h : d.tree.Bears x (command.sprout primary).children)
    (permitted : sub.canExecute c.source = true) (hrest : r.rest? = some name.toList)
    (hname : ∀ ch ∈ name.toList, ch ≠ separator) :
    ∃ y, d.tree.findChild? x name = some y ∧
      (command.ReadsText → ¬command.Shadows c r → (d.parseAt x r c).EndsAt y
        (sub.executor.bind (executorBefore · sub.parameters))) ∧
      (command.Shadows c r → ∃ p rest z, command.parameters = p :: rest ∧
        d.tree.findChild? x p.key = some z ∧ z ≠ y ∧ (d.parseAt x r c).EndsAt z
          (command.executor.bind (executorBefore · rest))) := by
  have hahead : r.rest? = some (name.toList ++ []) := by rw [hrest, List.append_nil]
  have hword := Reader.peekWord_eq hahead hname endsWord_nil
  obtain ⟨y, children, before, hbefore, hy, helig⟩ :=
    exists_eligible agree runs member listed h permitted hword
  obtain ⟨taken, htakes⟩ := Label.exists_takesAll hrest hname c
  refine ⟨y, hy, fun keeps hfree => ?_, fun hshadows => ?_⟩
  · have alone : ∀ other ∈ d.tree.eligible x r c.source, ∀ taken' : Taken r,
        other.Matches c taken' → other.label.TakesAll c taken' := by
      intro other hother taken' hm
      rw [helig] at hother
      rcases List.mem_append.1 hother with hother | hother
      · cases hbefore with
        | none => simp at hother
        | first parameters =>
          obtain rfl := List.mem_singleton.1 hother
          exact hm.takesAll (keeps _ (by rw [parameters]; rfl)) hrest hname
      · obtain rfl := List.mem_singleton.1 hother
        exact hm.takesAll trivial hrest hname
    have hends := Dispatcher.parseAt_of_takesAll alone helig (fun other hother taken' => ?_) htakes
    · rw [sprout_toNode] at hends
      exact hends
    · cases hbefore with
      | none => simp at hother
      | first parameters =>
        rw [List.mem_singleton.1 hother]
        exact fun h => hfree ⟨_, by rw [parameters]; rfl, taken', h⟩
  · obtain ⟨p, hp, taken', htakes'⟩ := hshadows
    cases hbefore with
    | none bare => simp [bare] at hp
    | @first q rest executor z _ parameters hexecutor hz =>
      obtain rfl : q = p := by simpa [parameters] using hp
      refine ⟨q, rest, z, parameters, hz, fun hzy => ?_, ?_⟩
      · have hsame := Tree.eq_of_mem_eligible (t := d.tree)
          (helig ▸ List.mem_append_left _ List.mem_cons_self)
          (helig ▸ List.mem_append_right _ List.mem_cons_self) hzy
        simp [Parameter.label] at hsame
      · rw [hexecutor]
        rw [List.singleton_append] at helig
        have alone : ∀ other ∈ d.tree.eligible x r c.source, ∀ taken : Taken r,
            other.Matches c taken → other.label.TakesAll c taken := by
          intro other hother taken hm
          rw [helig, List.mem_pair] at hother
          obtain rfl | rfl := hother
          · obtain rfl := Except.ok.inj (htakes'.takes.symm.trans hm.1)
            exact htakes'
          · exact hm.takesAll trivial hrest hname
        rw [← List.nil_append (_ :: _)] at helig
        exact Dispatcher.parseAt_of_takesAll alone helig (by simp) htakes'

end
end Command

namespace Manager
variable {m m' : Manager S E M} {config : Config} {command sub : Command S E M}
  {primary name : String} {x : Nat} {source : S}

/-- Below the alias of a command are the argument of its first parameter and the literals of
its subcommands. -/
theorem Plants.bears (h : m.Plants (command.sprout primary) m' x)
    (agree : Sprout.Agree (command.sprout primary).children) :
    m'.tree.Bears x (command.sprout primary).children := by
  obtain ⟨t, hbare, hlt, hlt', hsame⟩ := h.exists_graft
  exact (Tree.bears_graftAll hbare agree hlt).of_node?_eq hsame hlt'

/-- Where an alias of a command was free, an alias of a subcommand as the only word behind it
leads to the subcommand exactly if the parser of the first parameter does not take it,
provided that this parser keeps the text. Whenever it takes all that is ahead, the line ends
at this parameter, with what the command runs there. -/
theorem endsAt_subcommand_iff [Capable S] {allowed : Registration S E M → Prop} {owner : String}
    {draft : CommandDraft S E M} {requested : String} {secondary aliases : List String}
    {mapping : Mapping} {line : String} (reachable : Reachable config allowed m)
    (composed : draft.Composed) (built : draft.build = .ok command)
    (registered : m.registerCommand owner command requested secondary = .ok (m', mapping))
    (fresh : m.registry.IsFree mapping.primary) (member : (aliases, sub) ∈ command.subcommands)
    (listed : name ∈ aliases) (token : IsToken name) (permitted : command.canExecute source = true)
    (permitted' : sub.canExecute source = true)
    (hline : line = mapping.primary ++ (" " ++ name)) :
    ∃ node y, m'.tree.RootLiteral mapping.primary mapping.node node ∧
      m'.tree.findChild? mapping.node name = some y ∧
      (command.ReadsText → ((m'.dispatcher.parse line source).EndsAt y
          (sub.executor.bind (Command.executorBefore · sub.parameters)) ↔
        ¬command.Shadows (firstVisit line source mapping.node node mapping.primary)
          ⟨line, Text.size mapping.primary + 1⟩)) ∧
      (command.Shadows (firstVisit line source mapping.node node mapping.primary)
          ⟨line, Text.size mapping.primary + 1⟩ →
        ∃ p rest z, command.parameters = p :: rest ∧
          m'.tree.findChild? mapping.node p.key = some z ∧ z ≠ y ∧
            (m'.dispatcher.parse line source).EndsAt z
              (command.executor.bind (Command.executorBefore · rest))) := by
  have hplants := plants_of_registerCommand reachable.coherent registered fresh
  obtain ⟨noConflict, hruns, rfl⟩ := CommandDraft.describes_of_build built
  have agree := Command.agree_sprout_children (composed.disjoint noConflict)
    (Tree.not_hasClash_of_check hplants.checked)
  obtain ⟨halias, node, hx, hplain, -, huse⟩ := hplants.exists_literal
  have hparse := (Dispatcher.parse_line (d := m'.dispatcher) hplants.literals hx
    halias.ne_separator token.ne_empty hline ((huse source).trans permitted)).1 hplain
  have hrest : (⟨line, Text.size mapping.primary + 1⟩ : Reader).rest? = some name.toList :=
    hline ▸ Reader.rest?_line mapping.primary name
  obtain ⟨y, hy, hfree, hshadows⟩ := Command.exists_endsAt (d := m'.dispatcher)
    (c := firstVisit line source mapping.node node mapping.primary) agree
    (fun hnone => (hruns hnone).2) member listed (hplants.bears agree) permitted' hrest
    token.ne_separator
  rw [← hparse] at hfree hshadows
  refine ⟨node, y, hx, hy, fun keeps => ⟨fun hends hshadowed => ?_, hfree keeps⟩, hshadows⟩
  obtain ⟨p, rest, z, -, -, hzy, hends'⟩ := hshadows hshadowed
  exact hzy (hends'.unique hends)

/-- `warp` with a name, and beside it a subcommand with the aliases `list` and `?`. -/
def warpOrList : CommandDraft Principal Nat Unit :=
  ((({} : CommandDraft Principal Nat Unit).parameter
    { key := "name", parser := StandardParser.word.toParser }).child
    ⟨[], [], some 2, none, none, none⟩ ["list", "?"]).executes 1

/-- What is built from it. -/
def warpNamed : Command Principal Nat Unit :=
  ⟨warpOrList.parameters, warpOrList.subcommands, some 1, none, none, none⟩

/-- `warp ?` runs the subcommand, and `warp list` runs the command with the name `list`. -/
theorem endsAt_subcommand_iff_warp : ∃ m mapping y z,
    warpOrList.Composed ∧ warpOrList.build = .ok warpNamed ∧
      (empty {}).registerCommand "demo" warpNamed "warp" [] = .ok (m, mapping) ∧
      (m.dispatcher.parse "warp ?" (.named "guest")).EndsAt y (some 2) ∧
      m.tree.findChild? mapping.node "name" = some z ∧
      (m.dispatcher.parse "warp list" (.named "guest")).EndsAt z (some 1) := by
  have start : Reachable {} (fun _ => True) (empty {} : Manager Principal Nat Unit) := .refl
  have composed : warpOrList.Composed := .executes (.child (.parameter .start _) _ _) 1
  have built : warpOrList.build = .ok warpNamed := rfl
  obtain ⟨m, registered⟩ : ∃ m, (empty {}).registerCommand "demo" warpNamed "warp" [] =
      .ok (m, ⟨"demo", "warp", ["warp"], 1, {}⟩) := ⟨_, rfl⟩
  have member : (["list", "?"], (⟨[], [], some 2, none, none, none⟩ : Command Principal Nat Unit)) ∈
      warpNamed.subcommands := List.mem_of_getElem? (i := 0) rfl
  have permitted : warpNamed.canExecute (.named "guest") = true := rfl
  have question : IsToken "?" := ⟨by decide, by simp [separator]⟩
  have list : IsToken "list" := ⟨by decide, by simp [separator]⟩
  have keeps : warpNamed.ReadsText := by
    rintro p ⟨⟩
    exact fun _ r => StandardParser.word.input_parse r
  have reads : warpNamed.parameters[0].Reads "list" (.string "list") :=
    ⟨list, .word, ⟨"list", 4⟩, by simp, rfl, rfl, by decide⟩
  obtain ⟨_, y, -, -, hquestion, -⟩ := endsAt_subcommand_iff start composed built registered rfl
    member (by simp) question permitted rfl rfl
  obtain ⟨_, _, -, -, -, hlist⟩ := endsAt_subcommand_iff start composed built registered rfl
    member (by simp) list permitted rfl rfl
  obtain ⟨p, rest, z, hparameters, hz, -, hends⟩ :=
    hlist ⟨_, rfl, reads.takesAll _ (Reader.rest?_line "warp" "list")⟩
  obtain ⟨rfl, rfl⟩ := List.cons.inj hparameters
  refine ⟨m, _, y, z, composed, built, registered, (hquestion keeps).2 ?_, hz, hends⟩
  rintro ⟨p, hp, taken, htakes, -⟩
  obtain rfl := Option.some.inj hp
  cases htakes

end Manager
end Dispatch
