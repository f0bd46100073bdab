import Dispatch.Proofs.Manager.Independent
import Dispatch.Proofs.Manager.Subcommands
/-!
# Which commands are accepted

A subtree without redirects that goes where nothing has its name can be refused for one reason
only: two siblings in it share a name but not a kind (`Tree.check_none_cases`). In the subtree
of a command these are the argument of the first parameter and the literal of a subcommand
beside it, where the key of the parameter is an alias of the subcommand (`Command.Homonym`).
To build a command is not to look for such pairs, so not every command that can be built can
be registered: under an alias that is free it is accepted exactly if it has none, and refused
with the name of one otherwise (`Manager.registers_iff`).
-/
namespace Dispatch
variable {S E M : Type}

/-! ## Siblings of different kinds -/

/-- Somewhere below the sprout two siblings of this name are of different kinds. -/
inductive Sprout.Clashing (name : String) : Sprout S E M → Prop
  | here {b c d : Sprout S E M} (hc : c ∈ b.children) (hd : d ∈ b.children)
    (clash : clashes c.label d.label = true) (name_eq : d.name = name) : Clashing name b
  | deeper {b c : Sprout S E M} (hc : c ∈ b.children) (clashing : Clashing name c) : Clashing name b

namespace Tree
variable {t : Tree S E M} {b : Sprout S E M} {bs : List (Sprout S E M)} {name : String}

/-- A sprout goes where nothing has its name as it goes under no node at all. -/
theorem check_eq_check_none {parent : Nat} (h : t.findChild? parent b.name = none) :
    t.check (some parent) b = t.check none b := by
  obtain ⟨label, children, executor, requirement, redirect, modifier, forks⟩ := b
  rw [Sprout.name] at h
  simp only [check, Option.bind_some, h, Option.bind_none]

theorem check_none_eq_checkSiblings (plain : b.redirect = none) :
    t.check none b = t.checkSiblings none [] b.children := by
  obtain ⟨label, children, executor, requirement, redirect, modifier, forks⟩ := b
  obtain rfl : redirect = none := plain
  have hnode : t.checkNode none label none (!children.isEmpty) = .ok () :=
    checkNode_eq_ok_iff.2 (by simp)
  simp only [check, Option.bind_none, hnode, bind, Except.bind]

/-- The sprout is accepted, or refused because of siblings of different kinds. -/
def AcceptsOrClashes (t : Tree S E M) (b : Sprout S E M) : Prop :=
  t.check none b = .ok () ∨
    ∃ name, t.check none b = .error (.nameConflict name) ∧ b.Clashing name

theorem checkSiblings_none_cases {earlier : List (Label S E M)}
    (each : ∀ b ∈ bs, t.AcceptsOrClashes b) :
    t.checkSiblings none earlier bs = .ok () ∨
      ∃ name, t.checkSiblings none earlier bs = .error (.nameConflict name) ∧
        ((∃ label ∈ earlier, ∃ d ∈ bs, Sprout.clashes label d.label = true ∧ d.name = name) ∨
          (∃ c ∈ bs, ∃ d ∈ bs, Sprout.clashes c.label d.label = true ∧ d.name = name) ∨
          ∃ b ∈ bs, b.Clashing name) := by
  induction bs generalizing earlier with
  | nil => exact .inl rfl
  | cons first rest ih =>
    simp only [checkSiblings, bind, Except.bind, throw, throwThe, MonadExceptOf.throw]
    by_cases hclash : (earlier.any fun label => Sprout.clashes label first.label) = true
    · obtain ⟨label, hlabel, hclashes⟩ := List.any_eq_true.1 hclash
      rw [if_pos hclash]
      exact .inr ⟨first.name, rfl, .inl ⟨label, hlabel, first, List.mem_cons_self, hclashes, rfl⟩⟩
    · rw [if_neg hclash]
      rcases each first List.mem_cons_self with hfirst | ⟨name, hfirst, hclashing⟩
      · simp only [hfirst]
        rcases @ih (earlier ++ [first.label])
            fun b hb => each b (List.mem_cons_of_mem first hb) with hrest | ⟨name, hrest, hcases⟩
        · exact .inl hrest
        · refine .inr ⟨name, hrest, ?_⟩
          rcases hcases with
            ⟨label, hlabel, d, hd, hclashes⟩ | ⟨c, hc, d, hd, hclashes⟩ | ⟨b, hb, h⟩
          · -- What is earlier now was so before, or it is the first sibling.
            rcases List.mem_append.1 hlabel with hlabel | hlabel
            · exact .inl ⟨label, hlabel, d, List.mem_cons_of_mem first hd, hclashes⟩
            · rw [List.mem_singleton.1 hlabel] at hclashes
              exact .inr (.inl ⟨first, List.mem_cons_self, d, List.mem_cons_of_mem first hd,
                hclashes⟩)
          · exact .inr (.inl ⟨c, List.mem_cons_of_mem first hc, d, List.mem_cons_of_mem first hd,
              hclashes⟩)
          · exact .inr (.inr ⟨b, List.mem_cons_of_mem first hb, h⟩)
      · simp only [hfirst]
        exact .inr ⟨name, rfl, .inr (.inr ⟨first, List.mem_cons_self, hclashing⟩)⟩

theorem check_none_cases (t : Tree S E M) (plain : b.IsPlain) : t.AcceptsOrClashes b := by
  induction plain with
  | mk redirect child ih =>
    rw [AcceptsOrClashes, check_none_eq_checkSiblings redirect]
    rcases checkSiblings_none_cases ih with hok | ⟨name, herror, hcases⟩
    · exact .inl hok
    · refine .inr ⟨name, herror, ?_⟩
      rcases hcases with ⟨label, hlabel, -⟩ | ⟨c, hc, d, hd, hclash, hname⟩ | ⟨c, hc, hclashing⟩
      · simp at hlabel
      · exact .here hc hd hclash hname
      · exact .deeper hc hclashing

/-- What is accepted has no such siblings. -/
theorem check_none_eq_ok_iff (plain : b.IsPlain) :
    t.check none b = .ok () ↔ ∀ name, ¬b.Clashing name := by
  constructor
  · intro hcheck name hclashing
    induction hclashing with
    | here hc hd hclash =>
      have hsymm : Std.Symm fun c d : Sprout S E M => Sprout.clashes c.label d.label = false :=
        ⟨fun _ _ h => (Sprout.clashes_comm ..).trans h⟩
      have hall := (check_eq_ok_iff.1 hcheck).siblings.forall_of_forall
        (fun e _ => Sprout.clashes_self e.label) hc hd
      exact Bool.false_ne_true (hall.symm.trans hclash)
    | deeper hc _ ih => exact ih (plain.child _ hc) ((check_eq_ok_iff.1 hcheck).below _ hc)
  · intro hnone
    rcases check_none_cases t plain with hok | ⟨name, -, hclashing⟩
    · exact hok
    · exact absurd hclashing (hnone name)

/-- A literal that does not pass the check is not registered. -/
theorem register_of_check_error {e : RegistrationError} (hliteral : b.isLiteral = true)
    (hcheck : t.check (some root) b = .error e) : t.register b = .error e := by
  have hroot : t.checkId root = .ok () := checkId_eq_ok_iff.2 t.hasRoot
  simp [register, hliteral, addChild, hroot, hcheck, bind, Except.bind]

end Tree

/-! ## Subtrees of commands -/

namespace Command
variable {command : Command S E M} {name primary : String}

/-- The command was built, and so were its subcommands. -/
inductive IsBuilt : Command S E M → Prop
  | mk {draft : CommandDraft S E M} {command : Command S E M} (built : draft.build = .ok command)
    (nested : ∀ s ∈ draft.subcommands, IsBuilt s.2) : IsBuilt command

/-- Somewhere in the command, the name is both the key of the first parameter and an alias of
a subcommand beside it. Subcommands without aliases are nowhere. -/
inductive Homonym (name : String) : Command S E M → Prop
  | beside {command sub : Command S E M} {p : Parameter S E M} {aliases : List String}
    (first : p ∈ command.parameters.head?) (key : p.key = name)
    (member : (aliases, sub) ∈ command.subcommands) (listed : name ∈ aliases) : Homonym name command
  | deeper {command sub : Command S E M} {aliases : List String}
    (member : (aliases, sub) ∈ command.subcommands) (reached : aliases ≠ [])
    (homonym : Homonym name sub) : Homonym name command

/-- The argument of a parameter is alone, and so are those below it. -/
theorem not_clashing_sprout_parameter (executor : E) (rest : List (Parameter S E M))
    (p : Parameter S E M) : ¬(p.sprout executor rest).Clashing name := by
  have hchildren : ∀ (p : Parameter S E M) rest,
      (p.sprout executor rest).children = parameterChain executor rest := fun _ _ => rfl
  induction rest generalizing p with
  | nil =>
    intro h
    cases h <;> simp_all [parameterChain]
  | cons q rest ih =>
    intro h
    cases h with
    | here hc hd clash =>
      rw [hchildren, parameterChain_cons, List.mem_singleton] at hc hd
      rw [hc, hd, Sprout.clashes_self] at clash
      exact Bool.false_ne_true clash
    | deeper hc h =>
      rw [hchildren, parameterChain_cons, List.mem_singleton] at hc
      exact ih q (hc ▸ h)

theorem isPlain_sprout_parameter (executor : E) (rest : List (Parameter S E M))
    (p : Parameter S E M) : (p.sprout executor rest).IsPlain := by
  induction rest generalizing p with
  | nil =>
    refine .mk rfl fun c hc => ?_
    simp [Parameter.sprout, parameterChain] at hc
  | cons q rest ih =>
    refine .mk rfl fun c hc => ?_
    rw [Parameter.sprout, parameterChain_cons, List.mem_singleton] at hc
    exact hc ▸ ih q

theorem isLiteral_sprout (command : Command S E M) (name : String) :
    (command.sprout name).isLiteral = true := by
  rw [Sprout.isLiteral, sprout_label]
  rfl

theorem redirect_sprout (command : Command S E M) (name : String) :
    (command.sprout name).redirect = none :=
  congrArg Node.redirect (sprout_toNode command name)

theorem IsBuilt.isPlain (built : command.IsBuilt) : (command.sprout primary).IsPlain := by
  induction built generalizing primary with
  | @mk draft command hbuild _ ih =>
    obtain ⟨-, -, hcommand⟩ := CommandDraft.describes_of_build hbuild
    refine .mk (redirect_sprout command primary) fun c hc => ?_
    obtain ⟨executor, p, rest, -, -, rfl⟩ | ⟨aliases, sub, hsub, other, -, rfl⟩ :=
      mem_sprout_children hc
    · exact isPlain_sprout_parameter executor rest p
    · rw [hcommand] at hsub
      exact ih (aliases, sub) hsub

section
variable {sub : Command S E M} {p : Parameter S E M} {rest : List (Parameter S E M)}
  {executor : E} {aliases : List String}

theorem argument_mem_children (runs : command.executor = some executor)
    (parameters : command.parameters = p :: rest) :
    p.sprout executor rest ∈ (command.sprout primary).children := by
  rw [sprout_children, runs, parameters]
  simp [parameterChain_cons]

theorem literal_mem_children (member : (aliases, sub) ∈ command.subcommands)
    (listed : name ∈ aliases) : sub.sprout name ∈ (command.sprout primary).children := by
  rw [sprout_children]
  exact List.mem_append_right _ (mem_sproutsOf.2 ⟨aliases, sub, member, name, listed, rfl⟩)

end

/-- Of two siblings of different kinds one is the argument of the first parameter, and the
other one the literal of a subcommand. -/
theorem homonym_of_clashes {c d : Sprout S E M} (hc : c ∈ (command.sprout primary).children)
    (hd : d ∈ (command.sprout primary).children) (clash : Sprout.clashes c.label d.label = true)
    (hname : d.name = name) : command.Homonym name := by
  rw [Sprout.clashes, Bool.and_eq_true, beq_iff_eq, bne_iff_ne] at clash
  obtain ⟨hsame, hkinds⟩ := clash
  obtain ⟨_, p, rest, -, hparameters, rfl⟩ | ⟨aliases, sub, hsub, other, hother, rfl⟩ :=
    mem_sprout_children hc
  · obtain ⟨_, p', rest', -, -, rfl⟩ | ⟨aliases, sub, hsub, other, hother, rfl⟩ :=
      mem_sprout_children hd
    · exact absurd rfl hkinds
    · rw [sprout_name] at hname
      subst hname
      rw [sprout_label] at hsame
      exact .beside (by rw [hparameters]; rfl) hsame hsub hother
  · rw [sprout_label] at hsame hkinds
    obtain ⟨_, p, rest, -, hparameters, rfl⟩ | ⟨aliases', sub', -, other', -, rfl⟩ :=
      mem_sprout_children hd
    · obtain rfl : other = name := hsame.trans hname
      exact .beside (by rw [hparameters]; rfl) hname hsub hother
    · rw [sprout_label] at hkinds
      exact absurd rfl hkinds

/-- The siblings of different kinds in the subtree of a command are its homonyms. -/
theorem IsBuilt.clashing_sprout_iff (built : command.IsBuilt) :
    (command.sprout primary).Clashing name ↔ command.Homonym name := by
  induction built generalizing primary with
  | @mk draft command hbuild _ ih =>
    obtain ⟨-, hruns, rfl⟩ := CommandDraft.describes_of_build hbuild
    constructor
    · intro h
      cases h with
      | here hc hd clash hname => exact homonym_of_clashes hc hd clash hname
      | deeper hc h =>
        obtain ⟨executor, p, rest, -, -, rfl⟩ | ⟨aliases, sub, hsub, other, hother, rfl⟩ :=
          mem_sprout_children hc
        · exact absurd h (not_clashing_sprout_parameter executor rest p)
        · exact .deeper hsub (List.ne_nil_of_mem hother) ((ih (aliases, sub) hsub).1 h)
    · intro h
      cases h with
      | @beside _ sub p aliases first key member listed =>
        obtain ⟨rest, hparameters⟩ := List.head?_eq_some_iff.1 first
        -- A command with parameters was built with something to run.
        obtain ⟨executor, hexecutor⟩ := Option.ne_none_iff_exists'.1 fun hnone =>
          List.cons_ne_nil p rest (hparameters.symm.trans (hruns hnone).2)
        refine .here (argument_mem_children hexecutor hparameters)
          (literal_mem_children member listed) ?_ (sprout_name sub name)
        rw [sprout_label, ← key]
        simp [Sprout.clashes, Parameter.sprout, Parameter.label, Label.name, Label.isLiteral]
      | @deeper _ sub aliases member reached homonym =>
        obtain ⟨other, hother⟩ := List.exists_mem_of_ne_nil aliases reached
        exact .deeper (literal_mem_children member hother) ((ih (aliases, sub) member).2 homonym)

end Command

/-! ## Registration -/

namespace Manager
variable {m m' : Manager S E M} {config : Config} {command : Command S E M}
  {owner requested : String} {secondary : List String}

section
variable (hm : m.Coherent) (word : Text.isWord requested = true)
  (unclaimed : m.registry.contains requested = false)
include hm word unclaimed

/-- A command under an alias that nobody has is accepted if its subtree is, and refused as
this is otherwise. -/
theorem registerCommand_of_unclaimed (owner : String) (command : Command S E M)
    (secondary : List String) :
    (m.tree.check none (command.sprout (Text.toLower requested)) = .ok () →
      ∃ m' mapping, m.registerCommand owner command requested secondary = .ok (m', mapping)) ∧
    ∀ e, m.tree.check none (command.sprout (Text.toLower requested)) = .error e →
      m.registerCommand owner command requested secondary = .error e := by
  have hkept : normalizeAlias requested = .ok (Text.toLower requested) := by
    rw [normalizeAlias, if_pos word]
  have hfree : m.registry.IsFree (Text.toLower requested) :=
    NameMap.contains_eq_false_iff.1 unclaimed
  have hgranted : m.registry.resolvePrimary m.config owner (command.sprout requested).name =
      .ok (.free (Text.toLower requested)) := by
    rw [Command.sprout_name]
    exact Registry.resolvePrimary_of_isFree hkept hfree
  have hnone :
      m.tree.findChild? Tree.root (command.sprout (Text.toLower requested)).name = none := by
    rw [Command.sprout_name]
    exact hm.literals.findChild?_eq_none_iff.2 (hm.not_mem_rootNames hfree)
  rw [← Tree.check_eq_check_none hnone]
  constructor
  · intro hcheck
    have hplaced := Tree.register_of_check (command.isLiteral_sprout _) hcheck
    rw [← withLiteral_sprout command requested] at hplaced
    exact ⟨⟨⟨_, m.config⟩, _⟩, _, registerDescribed_eq_ok_iff.2
      ⟨_, _, _, _, command.isLiteral_sprout requested, hgranted, hplaced, rfl, rfl, rfl⟩⟩
  · intro e hcheck
    have hrefused := Tree.register_of_check_error (command.isLiteral_sprout _) hcheck
    rw [← withLiteral_sprout command requested] at hrefused
    simp only [registerCommand, registerDescribed, command.isLiteral_sprout, hgranted, Grant.name,
      hrefused, bind, Except.bind, Bool.not_true, Bool.false_eq_true, if_false]

end

/-- A command that was built is registered under an alias that nobody has exactly if no first
parameter in it has the key of an alias of a subcommand beside it. Otherwise it is refused
with the name of such a parameter. -/
theorem registers_iff [Capable S] {allowed : Registration S E M → Prop}
    (reachable : Reachable config allowed m) (built : command.IsBuilt)
    (word : Text.isWord requested = true) (unclaimed : m.registry.contains requested = false) :
    ((∃ m' mapping, m.registerCommand owner command requested secondary = .ok (m', mapping)) ↔
      ∀ name, ¬command.Homonym name) ∧
    ∀ e, m.registerCommand owner command requested secondary = .error e →
      ∃ name, e = .nameConflict name ∧ command.Homonym name := by
  have hplain : (command.sprout (Text.toLower requested)).IsPlain := built.isPlain
  have hclashing : ∀ name, (command.sprout (Text.toLower requested)).Clashing name ↔
      command.Homonym name := fun _ => built.clashing_sprout_iff
  obtain ⟨hregisters, hrefuses⟩ :=
    registerCommand_of_unclaimed reachable.coherent word unclaimed owner command secondary
  rcases Tree.check_none_cases m.tree hplain with hcheck | ⟨name, hcheck, hname⟩
  · obtain ⟨m', mapping, hregistered⟩ := hregisters hcheck
    have hnone : ∀ name, ¬command.Homonym name := fun name homonym =>
      (Tree.check_none_eq_ok_iff hplain).1 hcheck name ((hclashing name).2 homonym)
    refine ⟨⟨fun _ => hnone, fun _ => ⟨m', mapping, hregistered⟩⟩, fun e herror => ?_⟩
    simp [hregistered] at herror
  · have hrefused := hrefuses _ hcheck
    have homonym := (hclashing name).1 hname
    refine ⟨⟨?_, fun hnone => absurd homonym (hnone name)⟩, fun e herror => ?_⟩
    · rintro ⟨m', mapping, hregistered⟩
      simp [hrefused] at hregistered
    · exact ⟨name, Except.error.inj (herror.symm.trans hrefused), homonym⟩

/-- A command with one parameter, and beside it the subcommand `list`. -/
def listBeside (key : String) : CommandDraft Principal Nat Unit where
  parameters := [{ key := key, parser := StandardParser.word.toParser }]
  subcommands := [(["list"], ⟨[], [], some 2, none, none, none⟩)]
  executor := some 1

/-- What is built from it. -/
def listed (key : String) : Command Principal Nat Unit :=
  ⟨(listBeside key).parameters, (listBeside key).subcommands, some 1, none, none, none⟩

theorem isBuilt_listed (key : String) : (listed key).IsBuilt := by
  have built : (listBeside key).build = .ok (listed key) := rfl
  refine .mk built fun s hs => ?_
  obtain rfl := List.mem_singleton.1 hs
  have inner : ({ executor := some 2 } : CommandDraft Principal Nat Unit).build =
      .ok ⟨[], [], some 2, none, none, none⟩ := rfl
  exact .mk inner (by simp)

theorem homonym_listed_iff {key name : String} :
    (listed key).Homonym name ↔ key = name ∧ name = "list" := by
  constructor
  · intro h
    cases h with
    | beside first key member listed =>
      obtain rfl := Option.some.inj first
      obtain ⟨rfl, -⟩ := Prod.mk.inj (List.mem_singleton.1 member)
      exact ⟨key, List.mem_singleton.1 listed⟩
    | deeper member _ homonym =>
      obtain ⟨-, rfl⟩ := Prod.mk.inj (List.mem_singleton.1 member)
      cases homonym with
      | beside first => simp at first
      | deeper member => simp at member
  · rintro ⟨rfl, rfl⟩
    exact .beside rfl rfl (List.mem_singleton_self _) (List.mem_singleton_self _)

/-- The command is registered with a parameter `name`, and refused with a parameter `list`. -/
theorem registers_iff_listed :
    (∃ m mapping, (empty {}).registerCommand "demo" (listed "name") "warp" [] =
      .ok (m, mapping)) ∧
    (empty {}).registerCommand "demo" (listed "list") "warp" [] =
      .error (.nameConflict "list") := by
  have start : Reachable {} (fun _ => True) (empty {} : Manager Principal Nat Unit) := .refl
  constructor
  · refine (registers_iff start (isBuilt_listed "name") rfl rfl).1.2 fun name homonym => ?_
    obtain ⟨hkey, rfl⟩ := homonym_listed_iff.1 homonym
    exact absurd hkey (by decide)
  · cases hresult : (empty {}).registerCommand "demo" (listed "list") "warp" [] with
    | ok result =>
      have none_allowed := (registers_iff start (isBuilt_listed "list") rfl rfl).1.1 ⟨_, _, hresult⟩
      exact absurd (homonym_listed_iff.2 ⟨rfl, rfl⟩) (none_allowed "list")
    | error e =>
      obtain ⟨name, rfl, homonym⟩ :=
        (registers_iff start (isBuilt_listed "list") rfl rfl).2 e hresult
      rw [(homonym_listed_iff.1 homonym).2]

end Manager
end Dispatch
