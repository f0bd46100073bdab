import Dispatch.Proofs.Manager.BareAlias
import Dispatch.Proofs.Manager.FreshCommand
import Dispatch.Proofs.Text.Replace
/-!
# The names of permissions

A permission template has marks for the owner of a command and for its alias. Filled in at
once, each mark makes way for its text, and nothing that is put in is looked at again
(`Config.filled`). The name that is asked for comes about in two steps instead: the owner is
put in first, and the alias then takes the place of all its marks, those included that an
owner brings along or completes. So the two are the same exactly if putting in the owner makes
no further mark, or if the alias is the mark itself (`Manager.permissionFor_eq_filled_iff`).
-/
namespace Dispatch

namespace Config

/-- A piece of a permission template. -/
inductive Piece where
  | char (c : Char)
  /-- The mark for the owner. -/
  | owner
  /-- The mark for the alias. -/
  | name

/-- The pieces of a template. `skip` counts the characters of a mark that still have to be
passed over. -/
def pieces : (skip : Nat) → List Char → List Piece
  | _, [] => []
  | skip + 1, _ :: cs => pieces skip cs
  | 0, c :: cs =>
    if ownerMark.toList.isPrefixOf (c :: cs) then
      .owner :: pieces (ownerMark.toList.length - 1) cs
    else if aliasMark.toList.isPrefixOf (c :: cs) then
      .name :: pieces (aliasMark.toList.length - 1) cs
    else .char c :: pieces 0 cs

/-- What stands for a piece where the owner and the alias are known. -/
def Piece.text (owner name : List Char) : Piece → List Char
  | .char c => [c]
  | .owner => owner
  | .name => name

/-- The permission template with the owner and the alias in lower case in the places of their
marks.
-/
def filled (config : Config) (owner name : String) : String :=
  String.ofList ((pieces 0 config.permissionTemplate.toList).flatMap
    (Piece.text owner.toList (Text.toLower name).toList))

/-- A piece where only the owner is known. -/
def Piece.gapped (owner : List Char) : Piece → List (Option Char)
  | .char c => [some c]
  | .owner => owner.map some
  | .name => [none]

variable {owner name cs : List Char} {c : Char}

theorem ownerMark_toList : ownerMark.toList = '\x7b' :: "owner\x7d".toList := by decide

theorem aliasMark_toList : aliasMark.toList = '\x7b' :: "alias\x7d".toList := by decide

theorem not_ownerMark_isPrefix (cs : List Char) : ¬ownerMark.toList <+: aliasMark.toList ++ cs := by
  rw [ownerMark_toList, aliasMark_toList]
  simp

theorem not_aliasMark_isPrefix (cs : List Char) : ¬aliasMark.toList <+: ownerMark.toList ++ cs := by
  rw [ownerMark_toList, aliasMark_toList]
  simp

theorem pieces_skip (skip : Nat) (cs : List Char) : pieces skip cs = pieces 0 (cs.drop skip) := by
  induction skip generalizing cs with
  | zero => rw [List.drop_zero]
  | succ skip ih =>
    cases cs with
    | nil => simp [pieces]
    | cons c cs => rw [pieces, ih, List.drop_succ_cons]

theorem pieces_ownerMark (cs : List Char) :
    pieces 0 (ownerMark.toList ++ cs) = .owner :: pieces 0 cs := by
  have hstarts : ownerMark.toList.isPrefixOf (ownerMark.toList ++ cs) = true := by simp
  have hrest : pieces (ownerMark.toList.length - 1) ("owner\x7d".toList ++ cs) = pieces 0 cs := by
    rw [pieces_skip]
    rfl
  have hmark : ownerMark.toList ++ cs = '\x7b' :: ("owner\x7d".toList ++ cs) := rfl
  rw [hmark, pieces, ← hmark, if_pos hstarts, hrest]

theorem pieces_aliasMark (cs : List Char) :
    pieces 0 (aliasMark.toList ++ cs) = .name :: pieces 0 cs := by
  have hstarts : aliasMark.toList.isPrefixOf (aliasMark.toList ++ cs) = true := by simp
  have hother : ¬ownerMark.toList.isPrefixOf (aliasMark.toList ++ cs) = true := by
    rw [List.isPrefixOf_iff_prefix]
    exact not_ownerMark_isPrefix cs
  have hrest : pieces (aliasMark.toList.length - 1) ("alias\x7d".toList ++ cs) = pieces 0 cs := by
    rw [pieces_skip]
    rfl
  have hmark : aliasMark.toList ++ cs = '\x7b' :: ("alias\x7d".toList ++ cs) := rfl
  rw [hmark, pieces, ← hmark, if_neg hother, if_pos hstarts, hrest]

theorem pieces_cons (howner : ¬ownerMark.toList <+: c :: cs)
    (halias : ¬aliasMark.toList <+: c :: cs) : pieces 0 (c :: cs) = .char c :: pieces 0 cs := by
  rw [pieces, if_neg (by simpa using howner), if_neg (by simpa using halias)]

/-- A template is made of marks and of characters at which none starts. -/
theorem template_induction {motive : List Char → Prop} (nil : motive [])
    (owner : ∀ cs, motive cs → motive (ownerMark.toList ++ cs))
    (name : ∀ cs, motive cs → motive (aliasMark.toList ++ cs))
    (char : ∀ c cs, ¬ownerMark.toList <+: c :: cs → ¬aliasMark.toList <+: c :: cs → motive cs →
      motive (c :: cs)) (cs : List Char) : motive cs := by
  induction hlength : cs.length using Nat.strongRecOn generalizing cs with
  | ind n ih =>
    subst hlength
    have hshorter : ∀ {mark rest : List Char}, 0 < mark.length →
        rest.length < (mark ++ rest).length := by
      intro mark rest hpos
      rw [List.length_append]
      omega
    by_cases howner : ownerMark.toList <+: cs
    · obtain ⟨rest, rfl⟩ := howner
      exact owner rest (ih _ (hshorter (by decide)) rest rfl)
    · by_cases halias : aliasMark.toList <+: cs
      · obtain ⟨rest, rfl⟩ := halias
        exact name rest (ih _ (hshorter (by decide)) rest rfl)
      · cases cs with
        | nil => exact nil
        | cons c cs => exact char c cs howner halias (ih _ (Nat.lt_succ_self _) cs rfl)

/-! ## A template with its owner put in -/

/-- The template with the owner put in and with gaps for the alias. -/
def gapped (owner cs : List Char) : List (Option Char) :=
  (pieces 0 cs).flatMap (Piece.gapped owner)

theorem gapped_ownerMark (owner cs : List Char) :
    gapped owner (ownerMark.toList ++ cs) = owner.map some ++ gapped owner cs := by
  rw [gapped, pieces_ownerMark, List.flatMap_cons]
  rfl

theorem gapped_aliasMark (owner cs : List Char) :
    gapped owner (aliasMark.toList ++ cs) = none :: gapped owner cs := by
  rw [gapped, pieces_aliasMark, List.flatMap_cons]
  rfl

theorem gapped_cons (owner : List Char) (howner : ¬ownerMark.toList <+: c :: cs)
    (halias : ¬aliasMark.toList <+: c :: cs) :
    gapped owner (c :: cs) = some c :: gapped owner cs := by
  rw [gapped, pieces_cons howner halias, List.flatMap_cons]
  rfl

/-- To fill the gaps is to put in the alias. -/
theorem filled_gapped (owner name cs : List Char) :
    Text.filled name (gapped owner cs) = (pieces 0 cs).flatMap (Piece.text owner name) := by
  rw [gapped]
  induction pieces 0 cs with
  | nil => rfl
  | cons piece rest ih =>
    rw [List.flatMap_cons, List.flatMap_cons]
    cases piece with
    | char c => exact congrArg (c :: ·) ih
    | owner => rw [Piece.gapped, Text.filled_map_some, ih, Piece.text]
    | name => exact congrArg (name ++ ·) ih

/-- To put in the owner is to leave the mark for the alias in the gaps. -/
theorem replaceFrom_ownerMark (owner cs : List Char) :
    Text.replaceFrom ownerMark.toList owner 0 cs =
      Text.filled aliasMark.toList (gapped owner cs) := by
  induction cs using template_induction with
  | nil => rfl
  | owner cs ih =>
    rw [gapped_ownerMark, Text.filled_map_some, ← ih, ownerMark_toList, Text.replaceFrom_pattern]
  | name cs ih =>
    have hother := not_ownerMark_isPrefix cs
    rw [gapped_aliasMark, Text.filled_gap, ← ih]
    rw [ownerMark_toList, aliasMark_toList] at hother ⊢
    exact Text.replaceFrom_other (by decide) hother owner
  | char c cs howner halias ih =>
    rw [gapped_cons owner howner halias, Text.filled_char, ← ih, Text.replaceFrom_cons howner]

/-- The gaps are where the template has the mark for the alias. -/
theorem count_gapped (owner cs : List Char) :
    (gapped owner cs).count none = Text.occurrences aliasMark.toList cs := by
  induction cs using template_induction with
  | nil => rfl
  | owner cs ih =>
    have hother := not_aliasMark_isPrefix cs
    rw [gapped_ownerMark, List.count_append, List.count_eq_zero.2 (by simp), Nat.zero_add, ih]
    rw [ownerMark_toList, aliasMark_toList] at hother ⊢
    exact (Text.occurrences_other (by decide) hother).symm
  | name cs ih =>
    rw [gapped_aliasMark, List.count_cons_self, ih, Nat.add_comm, aliasMark_toList,
      Text.occurrences_mark (by decide)]
  | char c cs howner halias ih =>
    rw [gapped_cons owner howner halias, List.count_cons_of_ne (by simp), ih,
      Text.occurrences_cons halias]

/-- The two ways to fill in a template come to the same exactly if putting in the owner makes
no further mark for the alias, or if the alias is this mark. -/
theorem permissionFor_eq_iff (config : Config) (owner name : String) :
    config.permissionFor owner name = config.filled owner name ↔
      Text.occurrences aliasMark.toList
          (Text.replace config.permissionTemplate ownerMark owner).toList =
        Text.occurrences aliasMark.toList config.permissionTemplate.toList ∨
      Text.toLower name = aliasMark := by
  have hiff := Text.replaceFrom_filled_eq_iff (by decide : '\x7b' ∉ "alias\x7d".toList)
    (Text.toLower name).toList (gapped owner.toList config.permissionTemplate.toList)
  rw [← aliasMark_toList, ← replaceFrom_ownerMark, filled_gapped, count_gapped,
    String.toList_inj] at hiff
  rw [permissionFor, filled, Text.replace, Text.replace, String.ofList_inj, String.toList_ofList]
  exact hiff

end Config

namespace Manager
variable {S E M : Type} [Capable S]

/-- A command that is registered with a permission under an alias that was free lets those in
that hold its capability and pass its own requirement. -/
theorem Coherent.permits_eq_of_isFree {m m' : Manager S E M} {owner : String}
    {sprout : Sprout S E M} {secondary : List String} {mapping : Mapping} (hm : m.Coherent)
    (registered : m.registerWithPermission owner sprout secondary = .ok (m', mapping))
    (fresh : m.registry.IsFree mapping.primary) (source : S) :
    m'.permits mapping.node source =
      (Capable.holds source (m.config.permissionFor owner sprout.name) &&
        sprout.requirement.all fun requirement => requirement source) := by
  obtain ⟨children, hx⟩ := (plants_of_registerDescribed hm registered fresh).rootLiteral
  simp [permits, hx.lookup, Node.canUse, Sprout.toNode, Sprout.withLiteral_requirement, guarded,
    Sprout.withRequirement]

/-- The name of the capability that a command asks for is the template with the owner and the
alias in the places of their marks, exactly if putting in the owner makes no further mark for
the alias (or if the alias is this mark). A command that is registered with a permission under
an alias that was free asks for this capability. -/
theorem permissionFor_eq_filled_iff (config : Config) (owner : String) :
    (∀ name, config.permissionFor owner name = config.filled owner name ↔
      Text.occurrences Config.aliasMark.toList
          (Text.replace config.permissionTemplate Config.ownerMark owner).toList =
        Text.occurrences Config.aliasMark.toList config.permissionTemplate.toList ∨
      Text.toLower name = Config.aliasMark) ∧
    ∀ (allowed : Registration S E M → Prop) (m m' : Manager S E M) (sprout : Sprout S E M)
      (secondary : List String) (mapping : Mapping), Reachable config allowed m →
      m.registerWithPermission owner sprout secondary = .ok (m', mapping) →
      m.registry.IsFree mapping.primary → ∀ source, m'.permits mapping.node source =
        (Capable.holds source (config.permissionFor owner sprout.name) &&
          sprout.requirement.all fun requirement => requirement source) := by
  refine ⟨config.permissionFor_eq_iff owner, ?_⟩
  intro allowed m m' sprout secondary mapping reachable registered fresh source
  rw [← reachable.config_eq]
  exact reachable.coherent.permits_eq_of_isFree registered fresh source

/-- An owner that brings a mark along has the alias put into its own name, and so what `tp`
asks for is a capability of another owner. -/
theorem permissionFor_ne_filled_tp : ∃ (m : Manager Principal Nat Unit) (mapping : Mapping),
    (empty {}).registerWithPermission "x\x7balias\x7d" ((Sprout.literal "tp").executes 1) [] =
      .ok (m, mapping) ∧
    ({} : Config).permissionFor "x\x7balias\x7d" "tp" = "xtp.command.tp" ∧
    ({} : Config).permissionFor "x\x7balias\x7d" "tp" ≠
      ({} : Config).filled "x\x7balias\x7d" "tp" ∧
    ({} : Config).permissionFor "demo" "tp" = ({} : Config).filled "demo" "tp" ∧
    ∀ source, m.permits mapping.node source = Capable.holds source "xtp.command.tp" := by
  have start : Reachable {} (fun _ => True) (empty {} : Manager Principal Nat Unit) := .refl
  obtain ⟨m, registered⟩ : ∃ m, (empty {} : Manager Principal Nat Unit).registerWithPermission
      "x\x7balias\x7d" ((Sprout.literal "tp").executes 1) [] =
        .ok (m, ⟨"x\x7balias\x7d", "tp", ["tp"], 1, {}⟩) := ⟨_, rfl⟩
  have asked : ({} : Config).permissionFor "x\x7balias\x7d" "tp" = "xtp.command.tp" := by
    decide +kernel
  have fresh : (empty {} : Manager Principal Nat Unit).registry.IsFree "tp" := rfl
  refine ⟨m, _, registered, asked, fun heq => ?_, ?_, fun source => ?_⟩
  · rcases ((permissionFor_eq_filled_iff (S := Principal) (E := Nat) (M := Unit) {} _).1 "tp").1 heq
      with further | same
    · exact absurd further (by decide +kernel)
    · exact absurd same (by decide +kernel)
  · exact ((permissionFor_eq_filled_iff (S := Principal) (E := Nat) (M := Unit) {} _).1 "tp").2
      (.inl (by decide +kernel))
  · rw [(permissionFor_eq_filled_iff {} _).2 _ _ _ _ _ _ start registered fresh source]
    exact (Bool.and_true _).trans (congrArg (Capable.holds source) asked)

end Manager
end Dispatch
