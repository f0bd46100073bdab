import Dispatch.Proofs.Parse.Step
import Dispatch.Proofs.Reader.Lookahead
import Dispatch.Proofs.Registry.Coherence
import Dispatch.Proofs.Tree.Register
/-!
# Lines that start with a command

Where the children of the root are literals of different names, the first word of a line picks
one of them. A line that is nothing but such a name ends there (`parse_word`); one that goes
on behind a separator is parsed among the children of that literal, or in a context of its own
at the target of its redirect (`parse_line`). A principal that may not use the literal visits
nothing.
-/
namespace Dispatch
variable {S E M : Type}

theorem IsAlias.ne_separator {name : String} (h : IsAlias name) :
    ∀ c ∈ name.toList, c ≠ separator := by
  intro c hc hsep
  have hblank := (Text.isWord_iff.1 h.word).2 c hc
  rw [hsep] at hblank
  exact absurd hblank (by decide)

theorem IsAlias.ne_empty {name : String} (h : IsAlias name) : name ≠ "" := by
  rintro rfl
  exact absurd h.word (by decide)

/-- A text that stands for itself between separators. -/
structure IsToken (text : String) : Prop where
  ne_empty : text ≠ ""
  ne_separator : ∀ c ∈ text.toList, c ≠ separator

/-- A line with more than one word. -/
theorem Text.toList_line (word v : String) :
    (word ++ (" " ++ v)).toList = word.toList ++ separator :: v.toList := by
  rw [String.toList_append, String.toList_append]
  rfl

namespace Reader

/-- The word ahead ends where a separator or the end of the input follows it. -/
theorem peekWord_eq {r : Reader} {name : String} {tail : List Char}
    (hrest : r.rest? = some (name.toList ++ tail)) (hname : ∀ c ∈ name.toList, c ≠ separator)
    (htail : EndsWord tail) : r.peekWord = name := by
  have htake : wordChars tail = [] := by
    cases tail with
    | nil => rfl
    | cons c cs => simp [wordChars, htail c (by simp)]
  have hall : ∀ c ∈ name.toList, (c != separator) = true := by simpa using hname
  rw [peekWord, rest_eq_of_rest? hrest, wordChars, List.takeWhile_append_of_pos hall]
  rw [wordChars] at htake
  rw [htake, List.append_nil, String.ofList_toList]

/-- The word ahead and what follows it. -/
theorem exists_endsWord {r : Reader} (h : r.isOnBoundary = true) :
    ∃ tail, r.rest? = some (r.peekWord.toList ++ tail) ∧
      (∀ c ∈ r.peekWord.toList, c ≠ separator) ∧ EndsWord tail := by
  obtain ⟨cs, hcs⟩ := isOnBoundary_iff.1 h
  refine ⟨cs.dropWhile (· != separator), ?_, ?_, ?_⟩
  · rw [hcs, peekWord, rest_eq_of_rest? hcs, wordChars, String.toList_ofList,
      List.takeWhile_append_dropWhile]
  · intro c hc
    rw [peekWord, wordChars, String.toList_ofList] at hc
    simpa using List.all_eq_true.1 List.all_takeWhile c hc
  · intro c hc
    have hstop := List.head?_dropWhile_not (· != separator) cs
    rw [Option.mem_def.1 hc] at hstop
    simpa using hstop

/-- The first word of a line. -/
theorem peekWord_ofString {line name : String} {tail : List Char}
    (hname : ∀ c ∈ name.toList, c ≠ separator) (hline : line.toList = name.toList ++ tail)
    (htail : EndsWord tail) : (ofString line).peekWord = name :=
  peekWord_eq (hline ▸ rest?_ofString line) hname htail

theorem peekWord_word {name : String} (hname : ∀ c ∈ name.toList, c ≠ separator) :
    (ofString name).peekWord = name :=
  peekWord_ofString hname (List.append_nil _).symm endsWord_nil

theorem peekWord_line {name : String} (hname : ∀ c ∈ name.toList, c ≠ separator) (v : String) :
    (ofString (name ++ (" " ++ v))).peekWord = name :=
  peekWord_ofString hname (Text.toList_line name v) (endsWord_separator v.toList)

theorem rest?_line (name v : String) :
    (⟨name ++ (" " ++ v), Text.size name + 1⟩ : Reader).rest? = some v.toList := by
  have hone : Text.byteSize [separator] = 1 := by decide
  refine rest?_eq_some_iff.2 ⟨name.toList ++ [separator], ?_, ?_⟩
  · rw [Text.toList_line, List.append_assoc]
    rfl
  · rw [Text.byteSize_append, hone]
    rfl

/-- Behind the separator of a line with more than one word there is something left. -/
theorem canRead_line (name : String) {v : String} (hv : v ≠ "") :
    (⟨name ++ (" " ++ v), Text.size name + 1⟩ : Reader).canRead = true := by
  have hsize := Text.size_pos hv
  have hone : Text.size " " = 1 := by decide
  rw [canRead_iff]
  simp only [totalSize, Text.size_append, hone]
  omega

end Reader

/-- A literal takes itself where it is the next word. -/
theorem Label.take_word {r : Reader} {name : String} {tail : List Char}
    (hrest : r.rest? = some (name.toList ++ tail)) (hname : ∀ c ∈ name.toList, c ≠ separator)
    (htail : EndsWord tail) (c : Context S E M) :
    ∃ taken : Taken r, (Label.literal name).take c r = .ok taken ∧
      taken.after = r.advance name.toList :=
  ⟨_, if_pos (Reader.peekWord_eq hrest hname htail), rfl⟩

namespace Tree
variable {t : Tree S E M} {name : String} {x : Nat} {node : Node S E M}

/-- Among literals of different names, a word picks the one of its name. -/
theorem eligible_root (h : t.HasLiterals) (hx : t.RootLiteral name x node) {r : Reader}
    (hword : r.peekWord = name) (source : S) :
    t.eligible root r source =
      if node.canUse source then [⟨x, node, .literal name⟩] else [] := by
  have hothers : ∀ c ∈ t.childIds root, c ≠ x → t.tried? r source c = none := by
    intro c hc hne
    obtain ⟨other, found, hfound⟩ := h.literal c hc
    have hnames : other ≠ name := by
      rintro rfl
      exact hne (h.unique hfound hx)
    simp [tried?, hfound.lookup, hfound.label, Label.fits, hword, hnames]
  rw [eligible_eq, filterMap_tried?_eq (List.Nodup.of_map _ h.nodup) hx.child hothers]
  by_cases huse : node.canUse source = true
  · simp [tried?, hx.lookup, hx.label, Label.fits, hword, huse]
  · simp [tried?, hx.lookup, hx.label, Label.fits, hword, huse]

end Tree

/-- What a literal takes from a line that starts with it. -/
def firstTaken (line name : String) : Taken (Reader.ofString line) where
  value := none
  after := ⟨line, Text.size name⟩
  onward := Nat.zero_le _

/-- The context behind the literal with which a line starts. -/
def firstVisit (line : String) (source : S) (x : Nat) (node : Node S E M) (name : String) :
    Context S E M :=
  Offspring.visit ⟨x, node, .literal name⟩ (.start source line Tree.root 0) (firstTaken line name)

/-- A parse that ends behind the only word of a line is complete. -/
theorem Parse.isComplete_word (c : Context S E M) (name : String) :
    (Parse.ended c ⟨name, Text.size name⟩).isComplete = true := by
  have hread : ¬Text.size name + 1 ≤ Text.size name := by omega
  simp [Reader.canRead, Reader.canReadBytes, Reader.totalSize, hread]

namespace Dispatcher
variable {d : Dispatcher S E M} {name line : String} {x : Nat} {node : Node S E M}
  {tail : List Char}

/-- Where no child is eligible, nothing is visited. -/
theorem parseAt_of_eligible_nil {id : Nat} {r : Reader} {c : Context S E M}
    (h : d.tree.eligible id r c.source = []) : d.parseAt id r c = ⟨.single c, r, []⟩ := by
  rw [parseAt_eq, survey, h]
  rfl

/-- Where one child is eligible and leads on, the parse is what came of it. -/
theorem parseAt_of_eligible_singleton {id : Nat} {r : Reader} {c : Context S E M}
    {child : Offspring S E M} {p : Parse S E M} (h : d.tree.eligible id r c.source = [child])
    (htrial : d.trial c r child = .possible p ∨ d.trial c r child = .settled p) :
    d.parseAt id r c = p := by
  rw [parseAt_eq, survey, h]
  obtain htrial | htrial := htrial
  · simp [Survey.ofAttempts, htrial, Survey.conclude, Parse.best]
  · simp [Survey.ofAttempts, htrial, Survey.conclude]

theorem peek_firstTaken (hline : line.toList = name.toList ++ tail) :
    (firstTaken line name).after.peek = tail.head? := by
  have hrest : (firstTaken line name).after.rest? = some tail :=
    Reader.rest?_eq_some_iff.2 ⟨name.toList, hline, rfl⟩
  rw [Reader.peek, Reader.rest_eq_of_rest? hrest]

theorem canReadBytes_firstTaken (hline : line.toList = name.toList ++ tail) {n : Nat} :
    (firstTaken line name).after.canReadBytes n = true ↔ n ≤ Text.byteSize tail := by
  rw [Reader.canReadBytes_iff]
  simp only [firstTaken, Reader.totalSize, Text.size, hline, Text.byteSize_append]
  omega

/-- The literal matches the line. -/
theorem matches_firstTaken (hname : ∀ c ∈ name.toList, c ≠ separator)
    (hline : line.toList = name.toList ++ tail) (htail : EndsWord tail) (node : Node S E M)
    (x : Nat) (c : Context S E M) :
    (⟨x, node, .literal name⟩ : Offspring S E M).Matches c (firstTaken line name) := by
  have hword := Reader.peekWord_ofString hname hline htail
  constructor
  · rw [Label.take, if_pos hword]
    simp [firstTaken, Reader.ofString]
  · rw [Taken.isCutOff, peek_firstTaken hline]
    cases tail with
    | nil =>
      have hread : ¬(firstTaken line name).after.canReadBytes 1 = true := by
        rw [canReadBytes_firstTaken hline]
        simp
      simp [Reader.canRead, hread]
    | cons c cs => simp [htail c (by simp)]

/-- A principal that may not use the literal visits nothing. -/
theorem parse_of_not_canUse (h : d.tree.HasLiterals) (hx : d.tree.RootLiteral name x node)
    (hword : (Reader.ofString line).peekWord = name) {source : S}
    (huse : node.canUse source = false) :
    d.parse line source = ⟨.single (.start source line Tree.root 0), .ofString line, []⟩ := by
  have hnone : d.tree.eligible Tree.root (.ofString line) source = [] := by
    rw [Tree.eligible_root h hx hword, huse]
    rfl
  exact parseAt_of_eligible_nil hnone

section
variable (h : d.tree.HasLiterals) (hx : d.tree.RootLiteral name x node)
  (hname : ∀ c ∈ name.toList, c ≠ separator)
include h hx hname

theorem eligible_of_canUse (hline : line.toList = name.toList ++ tail) (htail : EndsWord tail)
    {source : S} (huse : node.canUse source = true) :
    d.tree.eligible Tree.root (.ofString line) source = [⟨x, node, .literal name⟩] := by
  rw [Tree.eligible_root h hx (Reader.peekWord_ofString hname hline htail), if_pos huse]

/-- A line that is the name of a literal ends behind it. -/
theorem parse_word {source : S} (huse : node.canUse source = true) :
    d.parse name source =
      .ended (firstVisit name source x node name) ⟨name, Text.size name⟩ := by
  have hline : name.toList = name.toList ++ [] := (List.append_nil _).symm
  have htail := endsWord_nil
  have hread : (firstTaken name name).after.canRead = false := by
    rw [Bool.eq_false_iff, Reader.canRead, ne_eq, canReadBytes_firstTaken hline]
    simp
  refine parseAt_of_eligible_singleton (eligible_of_canUse h hx hname hline htail huse) (.inl ?_)
  rw [trial_of_matches (matches_firstTaken hname hline htail node x _), hread]
  rfl

/-- A literal without a redirect is visited first, and nothing behind it takes that back. -/
theorem visits_word (hline : line.toList = name.toList ++ tail) (htail : EndsWord tail) {source : S}
    (huse : node.canUse source = true) (hplain : node.redirect = none) :
    (∃ rest, (d.parse line source).chain.outer.nodes =
        ⟨x, (firstTaken line name).range⟩ :: rest) ∧
      (firstVisit line source x node name).range.stop ≤
        (d.parse line source).chain.outer.range.stop := by
  have hm := matches_firstTaken hname hline htail node x (.start source line Tree.root 0)
  obtain ⟨p, htrial, hnodes, hstop⟩ := trial_of_plain (d := d) hm hplain
  have hparse : d.parse line source = p := parseAt_of_eligible_singleton
    (eligible_of_canUse h hx hname hline htail huse) (.inl htrial)
  rw [hparse]
  exact ⟨hnodes, hstop⟩

/-- A line that goes on behind the name of a literal with a redirect is parsed at the
target. -/
theorem parse_redirect {rest : List Char} (hline : line.toList = name.toList ++ separator :: rest)
    {source : S} (huse : node.canUse source = true) {target : Nat}
    (hredirect : node.redirect = some target) (hdepth : 1 ≤ d.config.maxRedirectDepth) :
    ∃ inner, inner = d.parseAt target ⟨line, Text.size name + 1⟩
        ((firstVisit line source x node name).entrance target ⟨line, Text.size name + 1⟩) ∧
      d.parse line source =
        { inner with chain := .enter (firstVisit line source x node name) inner.chain } := by
  have htail := endsWord_separator rest
  have hread : (firstTaken line name).after.canRead = true := by
    rw [Reader.canRead, canReadBytes_firstTaken hline, Text.byteSize_cons]
    exact Nat.le_add_right_of_le (Char.utf8Size_pos separator)
  have hlimit : ¬d.config.maxRedirectDepth < (Context.start (E := E) (M := M) source line
      Tree.root 0).redirectDepth + 1 := by
    simp only [Context.start]
    omega
  have htrial := trial_of_matches (d := d)
    (matches_firstTaken hname hline htail node x (.start source line Tree.root 0))
  simp only [if_pos hread, hredirect, if_neg hlimit] at htrial
  exact ⟨_, rfl, parseAt_of_eligible_singleton (eligible_of_canUse h hx hname hline htail huse)
    (.inr htrial)⟩

/-- Of a separator behind the name of a literal without a redirect, nothing is read. -/
theorem parse_separator (hline : line.toList = name.toList ++ [separator]) {source : S}
    (huse : node.canUse source = true) (hplain : node.redirect = none) :
    d.parse line source =
      .ended (firstVisit line source x node name) ⟨line, Text.size name⟩ := by
  have htail := endsWord_separator []
  have hone : Text.byteSize [separator] = 1 := by decide
  have hread : (firstTaken line name).after.canRead = true :=
    (canReadBytes_firstTaken hline).2 (Nat.le_of_eq hone.symm)
  have hbytes : ¬(firstTaken line name).after.canReadBytes 2 = true := by
    rw [canReadBytes_firstTaken hline, hone]
    decide
  have htrial := trial_of_matches (d := d)
    (matches_firstTaken hname hline htail node x (.start source line Tree.root 0))
  simp only [if_pos hread, hplain, if_neg hbytes] at htrial
  exact parseAt_of_eligible_singleton (eligible_of_canUse h hx hname hline htail huse) (.inl htrial)

/-- A line that goes on behind the name of a literal is parsed below it, or at the target of
its redirect. -/
theorem parse_line {v : String} (hv : v ≠ "") (hline : line = name ++ (" " ++ v)) {source : S}
    (huse : node.canUse source = true) :
    (node.redirect = none → d.parse line source =
      d.parseAt x ⟨line, Text.size name + 1⟩ (firstVisit line source x node name)) ∧
    ∀ target, node.redirect = some target → 1 ≤ d.config.maxRedirectDepth →
      ∃ inner, inner = d.parseAt target ⟨line, Text.size name + 1⟩
          ((firstVisit line source x node name).entrance target ⟨line, Text.size name + 1⟩) ∧
        d.parse line source =
          { inner with chain := .enter (firstVisit line source x node name) inner.chain } := by
  have hline' : line.toList = name.toList ++ separator :: v.toList :=
    hline ▸ Text.toList_line name v
  refine ⟨fun hplain => ?_, fun target => parse_redirect h hx hname hline' huse⟩
  have htail := endsWord_separator v.toList
  have hbytes : (firstTaken line name).after.canReadBytes 2 = true := by
    rw [canReadBytes_firstTaken hline']
    have hsize := Text.size_pos hv
    have hone : separator.utf8Size = 1 := by decide
    simp only [Text.size] at hsize
    simp only [Text.byteSize_cons, hone]
    omega
  have hread : (firstTaken line name).after.canRead = true :=
    Reader.canRead_of_canReadBytes hbytes
  have htrial := trial_of_matches (d := d)
    (matches_firstTaken hname hline' htail node x (.start source line Tree.root 0))
  simp only [if_pos hread, hplain, if_pos hbytes] at htrial
  exact parseAt_of_eligible_singleton (eligible_of_canUse h hx hname hline' htail huse)
    (.inl htrial)

end
end Dispatcher
end Dispatch
