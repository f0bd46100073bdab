import Dispatch.Proofs.Parse.Abreast
import Dispatch.Proofs.Parse.Hiding
import Dispatch.Proofs.Tree.Arena
/-!
# Lines behind a way back to the root

A literal under the root may redirect to the root, so that it can be typed any number of times
before a command (`Text.repeated`). Each time a context of its own is left behind
(`Context.IsDoor`), up to the limit of redirects, and in the last one the command is parsed as
it is alone, with all offsets moved (`parse_repeated`). Beyond the limit the parse is stuck
with one error (`parseAt_repeated_of_limit`).
-/
namespace Dispatch
variable {S E M : Type}

/-- A word that is typed `n` times, with a separator behind it each time. -/
def Text.repeated (word : String) : Nat → String
  | 0 => ""
  | n + 1 => word ++ (" " ++ repeated word n)

theorem Text.toList_repeated_succ (word : String) (n : Nat) :
    (repeated word (n + 1)).toList = word.toList ++ [separator] ++ (repeated word n).toList := by
  rw [repeated, toList_line, List.append_assoc]
  rfl

/-- A way along child edges stays within a region that these do not lead out of. -/
theorem Tree.StandardBelow.of_isChain {t : Tree S E M} {P : Nat → Prop} (h : t.StandardBelow P)
    {nodes : List ParsedNode} (path : nodes.IsChain t.Follows)
    (first : ∀ v ∈ nodes.head?, P v.node) : ∀ v ∈ nodes, P v.node := by
  induction nodes with
  | nil => simp
  | cons u rest ih =>
    have hu : P u.node := first u rfl
    obtain ⟨hnext, hrest⟩ := List.isChain_cons.1 path
    intro v hv
    rcases List.mem_cons.1 hv with rfl | hv
    · exact hu
    · exact ih hrest (fun w hw => h.closed _ _ hu (hnext w hw).1) v hv

/-- What proposes candidates for a label in place of its parser. -/
def Label.completer? : Label S E M → Option (Completer S E M)
  | .literal _ => none
  | .argument _ _ completer => completer

namespace Tree
variable {t : Tree S E M} {name : String} {x : Nat} {node : Node S E M}

/-- A literal under the root that leads back there and changes nothing on the way. All
commands are literals, and whatever is not below this one is standard: it does not redirect,
and its arguments have parsers of the library and no completers of their own. -/
structure LeadsBack (t : Tree S E M) (name : String) (x : Nat) (node : Node S E M) : Prop where
  grown : t.Grown
  commands : ∀ c ∈ t.childIds root, ∃ name node, t.RootLiteral name c node
  literal : t.RootLiteral name x node
  redirect : node.redirect = some root
  modifier : node.modifier = none
  forks : node.forks = false
  plain : ∀ id found, ¬t.Under x id → t.node? id = some found → found.redirect = none
  standard : ∀ id found label, ¬t.Under x id → t.node? id = some found →
    found.label = some label → label.IsStandard ∧ label.completer? = none

namespace LeadsBack
variable (h : t.LeadsBack name x node)
include h

theorem hasLiterals : t.HasLiterals where
  apart := fun i c hc hi => h.grown.uniqueParents i root c hi hc
  literal := h.commands
  nodup := (Grown.arranged h.grown).names root

theorem ne_root : x ≠ root := Nat.ne_of_gt (root_lt_of_mem_childIds h.literal.child)

/-- What is not below the literal stays there along child edges, but for the root. -/
theorem not_under_child {id c : Nat} (hroot : id ≠ root) (hid : ¬t.Under x id)
    (hc : c ∈ t.childIds id) : ¬t.Under x c := by
  intro hunder
  by_cases hcx : c = x
  · subst hcx
    exact hroot (h.grown.uniqueParents id root c hc h.literal.child)
  · exact hid (h.grown.uniqueParents.under_parent hc hunder hcx)

theorem not_under_command {c : Nat} (hc : c ∈ t.childIds root) (hne : c ≠ x) : ¬t.Under x c :=
  fun hunder => not_under_root h.ne_root (h.grown.uniqueParents.under_parent hc hunder hne)

theorem standardBelow : t.StandardBelow fun id => id ≠ root ∧ ¬t.Under x id where
  closed := by
    rintro id c ⟨hroot, hid⟩ hc
    exact ⟨Nat.ne_of_gt (root_lt_of_mem_childIds hc), h.not_under_child hroot hid hc⟩
  labels := by
    rintro id c found ⟨hroot, hid⟩ hc hfound label hlabel
    exact (h.standard c found label (h.not_under_child hroot hid hc) hfound hlabel).1
  plain := by
    rintro id c found ⟨hroot, hid⟩ hc hfound
    exact h.plain c found (h.not_under_child hroot hid hc) hfound

end LeadsBack

/-- The first word of a line is a command that the principal may use. -/
structure Opens (t : Tree S E M) (line : String) (source : S) (word : String) (c : Nat)
    (node : Node S E M) : Prop where
  peekWord_eq : (Reader.ofString line).peekWord = word
  literal : t.RootLiteral word c node
  use : node.canUse source = true

end Tree

/-- A context at the root that has visited nothing, behind some redirects. -/
def Context.fresh (source : S) (r : Reader) (depth : Nat) : Context S E M :=
  { Context.start source r.input Tree.root r.cursor with redirectDepth := depth }

/-- Such a context is where a parse can start. -/
theorem Context.leadsTo_fresh {d : Dispatcher S E M} {r : Reader} (source : S) (depth : Nat)
    (hr : r.isOnBoundary = true) :
    LeadsTo d source r.input Tree.root r.cursor depth (.fresh source r depth) Tree.root r :=
  { leadsTo_start hr with
    depth_eq := rfl
    text := fun _ => isSpelled_of_nodes_eq_nil rfl rfl }

/-- A context that holds a literal and leads on to another one, which starts at `next`. -/
structure Context.IsDoor (next : Nat) (c : Context S E M) : Prop where
  modifier : c.modifier = none
  forks : c.forks = false
  /-- The literal takes some room, before the next context. -/
  nonempty : c.range.isEmpty = false
  before : c.range.stop < next

theorem Context.IsDoor.mono {next next' : Nat} {c : Context S E M} (h : c.IsDoor next)
    (hle : next ≤ next') : c.IsDoor next' :=
  ⟨h.modifier, h.forks, h.nonempty, Nat.lt_of_lt_of_le h.before hle⟩

/-- The parse that goes on from some contexts with another parse. -/
def Parse.within (doors : List (Context S E M)) (p : Parse S E M) : Parse S E M :=
  { p with chain := doors.foldr Chain.enter p.chain }

namespace Parse
variable {doors : List (Context S E M)} {p : Parse S E M}

theorem levels_within (doors : List (Context S E M)) (p : Parse S E M) :
    (p.within doors).chain.levels = doors ++ p.chain.levels := by
  induction doors with
  | nil => rfl
  | cons door rest ih => exact congrArg (door :: ·) ih

theorem last_within (doors : List (Context S E M)) (p : Parse S E M) :
    (p.within doors).chain.last = p.chain.last := by
  induction doors with
  | nil => rfl
  | cons door rest ih =>
    rw [← ih]
    exact List.getLastD_cons ..

/-- A cursor that lies beyond contexts completes in what goes on from them. -/
theorem completionPoint_within {cursor : Nat} (h : ∀ door ∈ doors, door.range.stop < cursor) :
    (p.within doors).chain.completionPoint cursor = p.chain.completionPoint cursor := by
  induction doors with
  | nil => rfl
  | cons door rest ih =>
    rw [← ih fun other hother => h other (List.mem_cons_of_mem door hother)]
    exact if_pos (h door (List.mem_cons_self ..))

end Parse

namespace Dispatcher
variable {d : Dispatcher S E M} {name line : String} {x : Nat} {node : Node S E M} {source : S}
  {r : Reader} {tail : List Char}

/-! ## One redirect and several -/

/-- Where the literal is followed by a separator, the parse goes on at the root behind it, if
the limit allows that, and is stuck otherwise. -/
theorem parseAt_leadsBack (h : d.tree.LeadsBack name x node) (token : IsToken name)
    (use : node.canUse source = true)
    (hr : r.rest? = some (name.toList ++ [separator] ++ tail)) (depth : Nat) :
    ∃ door, Context.IsDoor (r.advance (name.toList ++ [separator])).cursor door ∧
      d.parseAt Tree.root r (.fresh source r depth) =
        if d.config.maxRedirectDepth < depth + 1 then
          ⟨.single (.fresh source r depth), r,
            [(x, (r.advance (name.toList ++ [separator])).error .redirectLimit
              [("limit", Decimal.natText d.config.maxRedirectDepth)])]⟩
        else (d.parseAt Tree.root (r.advance (name.toList ++ [separator]))
          (.fresh source (r.advance (name.toList ++ [separator])) (depth + 1))).within [door] := by
  rw [List.append_assoc] at hr
  obtain ⟨taken, htake, hafter⟩ := Label.take_word hr token.ne_separator
    (endsWord_separator tail) (Context.fresh (E := E) (M := M) source r depth)
  have hrest : taken.after.rest? = some (separator :: tail) := hafter ▸ Reader.rest?_advance hr
  have hread : taken.after.canRead = true := Reader.canRead_of_rest?_cons hrest
  have hm : (⟨x, node, .literal name⟩ : Offspring S E M).Matches (.fresh source r depth) taken :=
    ⟨htake, by simp [Taken.isCutOff, Reader.peek_eq_some_iff.2 ⟨tail, hrest⟩]⟩
  have heligible : d.tree.eligible Tree.root r
      (Context.fresh (E := E) (M := M) source r depth).source = [⟨x, node, .literal name⟩] := by
    rw [Tree.eligible_root h.hasLiterals h.literal
      (Reader.peekWord_eq hr token.ne_separator (endsWord_separator tail))]
    exact if_pos use
  have hpast : taken.after.pastSeparator = r.advance (name.toList ++ [separator]) := by
    rw [hafter, Reader.pastSeparator, Reader.advance, Reader.advance, Text.byteSize_append]
    rfl
  have htrial := trial_of_matches (d := d) hm
  simp only [hread, if_true, h.redirect, hpast] at htrial
  refine ⟨Offspring.visit ⟨x, node, .literal name⟩ (.fresh source r depth) taken,
    ⟨h.modifier, h.forks, ?_, ?_⟩, ?_⟩
  · have hsize := Text.size_pos token.ne_empty
    rw [Text.size] at hsize
    simp only [Offspring.visit_range, Span.isEmpty, Span.encompassing, Taken.range, Context.fresh,
      Context.start, Span.point, hafter, Reader.advance, beq_eq_false_iff_ne]
    omega
  · have hone := separator.utf8Size_pos
    simp only [Offspring.visit_range, Span.encompassing, Taken.range, Context.fresh, Context.start,
      Span.point, hafter, Reader.advance, Text.byteSize_append, Text.byteSize_cons]
    omega
  · split
    · next hlimit =>
      have hlimit' : d.config.maxRedirectDepth <
          (Context.fresh (E := E) (M := M) source r depth).redirectDepth + 1 := hlimit
      rw [if_pos hlimit'] at htrial
      rw [parseAt_eq, survey, heligible]
      simp only [Survey.ofAttempts, htrial]
      rfl
    · next hlimit =>
      have hlimit' : ¬d.config.maxRedirectDepth <
          (Context.fresh (E := E) (M := M) source r depth).redirectDepth + 1 := hlimit
      rw [if_neg hlimit'] at htrial
      rw [parseAt_of_eligible_singleton heligible (.inr htrial)]
      simp only [Context.entrance, Offspring.visit_source, Offspring.visit_redirectDepth]
      rfl

/-- A command that the principal may use is parsed the same wherever its line starts, since
neither it nor what is below it redirects. -/
theorem parseAt_fresh_abreast {u word : String} {c : Nat} {found : Node S E M}
    (h : d.tree.LeadsBack name x node) (opens : d.tree.Opens line source word c found)
    (hne : c ≠ x) {after : Reader} (input : after.input = u ++ line)
    (cursor : after.cursor = Text.size u) (depth : Nat) :
    (d.parseAt Tree.root after (.fresh source after depth)).Abreast u "" line [] []
      (d.parse line source) := by
  have hreaders : Abreast u "" line after (.ofString line) :=
    ⟨input, String.empty_append.symm, Nat.le_of_eq cursor.symm, by
      simp [Aligned, cursor, Reader.ofString, Text.size]⟩
  have hcontexts : (Context.fresh source after depth : Context S E M).Abreast u "" [] [] [] []
      (.start source line Tree.root 0) :=
    ⟨rfl, rfl, rfl, .nil, .nil, fun hnodes => absurd rfl hnodes⟩
  refine parseAt_abreast_of_trials hreaders hcontexts fun child hchild => ?_
  have heligible : d.tree.eligible Tree.root (.ofString line) source =
      [⟨c, found, .literal word⟩] := by
    rw [Tree.eligible_root h.hasLiterals opens.literal opens.peekWord_eq, if_pos opens.use]
  obtain rfl := List.mem_singleton.1 (heligible ▸ hchild)
  have hunder := h.not_under_command opens.literal.child hne
  have hroot : c ≠ Tree.root := Nat.ne_of_gt (Tree.root_lt_of_mem_childIds opens.literal.child)
  refine trial_abreast trivial (h.plain c found hunder opens.literal.lookup) hreaders hcontexts
    (Nat.le_refl _) (Nat.le_refl _) fun hr hc within within' => ?_
  exact parseAt_abreast h.standardBelow ⟨hroot, hunder⟩ hr hc within within'

section
variable (h : d.tree.LeadsBack name x node) (token : IsToken name)
  (use : node.canUse source = true)
include h token use

/-- Behind several of these words the parse goes on at the root, within as many contexts. -/
theorem parseAt_repeated {n : Nat} (depth : Nat)
    (hr : r.rest? = some ((Text.repeated name n).toList ++ tail))
    (hlimit : depth + n ≤ d.config.maxRedirectDepth) :
    ∃ doors : List (Context S E M), doors.length = n ∧
      (∀ door ∈ doors, door.IsDoor (r.advance (Text.repeated name n).toList).cursor) ∧
      d.parseAt Tree.root r (.fresh source r depth) =
        (d.parseAt Tree.root (r.advance (Text.repeated name n).toList)
          (.fresh source (r.advance (Text.repeated name n).toList) (depth + n))).within doors := by
  induction n generalizing r depth with
  | zero => exact ⟨[], rfl, by simp, rfl⟩
  | succ n ih =>
    rw [Text.toList_repeated_succ, List.append_assoc] at hr
    obtain ⟨door, hdoor, hparse⟩ := parseAt_leadsBack h token use hr depth
    rw [if_neg (by omega)] at hparse
    obtain ⟨doors, hlength, hdoors, hrest⟩ := ih (depth + 1) (Reader.rest?_advance hr) (by omega)
    rw [Reader.advance_advance, ← Text.toList_repeated_succ] at hdoors hrest
    refine ⟨door :: doors, by rw [List.length_cons, hlength], ?_, ?_⟩
    · rintro other hother
      rcases List.mem_cons.1 hother with rfl | hother
      · refine hdoor.mono ?_
        simp only [Reader.advance, Text.toList_repeated_succ, Text.byteSize_append]
        omega
      · exact hdoors other hother
    · have hdepth : depth + (n + 1) = depth + 1 + n := by omega
      rw [hparse, hrest, hdepth]
      rfl

/-- Beyond the limit the parse is stuck at one of these words, with one error. -/
theorem parseAt_repeated_of_limit {n depth : Nat}
    (hr : r.rest? = some ((Text.repeated name n).toList ++ tail))
    (hdepth : depth ≤ d.config.maxRedirectDepth)
    (hlimit : d.config.maxRedirectDepth < depth + n) :
    (d.parseAt Tree.root r (.fresh source r depth)).isComplete = false ∧
      ∃ error, (d.parseAt Tree.root r (.fresh source r depth)).errors = [(x, error)] ∧
        error.id = Diagnostic.redirectLimit.id := by
  induction n generalizing r depth with
  | zero => omega
  | succ n ih =>
    rw [Text.toList_repeated_succ, List.append_assoc] at hr
    obtain ⟨door, -, hparse⟩ := parseAt_leadsBack h token use hr depth
    rw [hparse]
    split
    · have hread : r.canRead = true := by
        have hsize := Reader.byteSize_of_rest? hr
        have hone := separator.utf8Size_pos
        rw [Text.byteSize_append, Text.byteSize_append, Text.byteSize_cons] at hsize
        rw [Reader.canRead_iff]
        omega
      exact ⟨by simp [Parse.isComplete, hread], _, rfl, rfl⟩
    · exact ih (Reader.rest?_advance hr) (by omega) (by omega)

/-- Within the limit, what is left behind the words is parsed as it is alone. -/
theorem parse_repeated {word : String} {c n : Nat} {found : Node S E M}
    (opens : d.tree.Opens line source word c found) (hne : c ≠ x)
    (hlimit : n ≤ d.config.maxRedirectDepth) :
    ∃ (doors : List (Context S E M)) (p : Parse S E M), doors.length = n ∧
      (∀ door ∈ doors, door.IsDoor (Text.size (Text.repeated name n))) ∧
      d.parse (Text.repeated name n ++ line) source = p.within doors ∧
      p.Abreast (Text.repeated name n) "" line [] [] (d.parse line source) ∧
      p.chain.outer.IsDerived d source (Text.repeated name n ++ line) Tree.root
        (Text.size (Text.repeated name n)) n ∧
      p.chain.outer.input = Text.repeated name n ++ line := by
  have hstart := Reader.rest?_ofString (Text.repeated name n ++ line)
  rw [String.toList_append] at hstart
  obtain ⟨doors, hlength, hdoors, hparse⟩ := parseAt_repeated h token use 0 hstart (by omega)
  have hrest := Reader.rest?_advance hstart
  have hcursor : ((Reader.ofString (Text.repeated name n ++ line)).advance
      (Text.repeated name n).toList).cursor = Text.size (Text.repeated name n) :=
    Nat.zero_add _
  rw [Nat.zero_add] at hparse
  have hyields := d.parseAt_yields Tree.root
    ((Reader.ofString (Text.repeated name n ++ line)).advance (Text.repeated name n).toList)
    (.fresh source
      ((Reader.ofString (Text.repeated name n ++ line)).advance (Text.repeated name n).toList) n)
  have hderives := hyields.derives
    (Context.leadsTo_fresh source n (Reader.isOnBoundary_iff.2 ⟨_, hrest⟩))
  refine ⟨doors, _, hlength, hcursor ▸ hdoors, hparse, ?_, hcursor ▸ hderives.outer,
    hyields.outer_input_eq⟩
  exact parseAt_fresh_abreast h opens hne rfl hcursor n

end
end Dispatcher
end Dispatch
