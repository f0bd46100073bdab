import Dispatch.Proofs.Decimal.Numerals
import Dispatch.Proofs.Json.Derived
import Dispatch.Proofs.Text.Cut
/-!
# Records are read from what is written

A reader reads a value if it makes the same of every text of the value, wherever this stands
between other tokens (`Json.Reads`). The pieces of a record have such readers: strings in any
spelling, sizes of 64 bits and values that may be `null`. From the readers of its members one
gets that of an object: what the members add, one after the other, is what the object is read
as (`Json.object?_reads`). A member that is left out adds nothing.
-/
namespace Dispatch.Json

variable {α β σ : Type} {c : Char} {cs text rest before : List Char}

/-! ## Space -/

theorem skipSpace_append (h : IsSpaces before) (cs : List Char) :
    skipSpace (before ++ cs) = skipSpace cs :=
  List.dropWhile_append_of_pos h

theorem skipSpace_cons (h : isSpace c = false) (cs : List Char) :
    skipSpace (c :: cs) = c :: cs := by
  rw [skipSpace, List.dropWhile_cons_of_neg (by simp [h])]

theorem skipSpace_eq_nil (h : IsSpaces before) : skipSpace before = [] := by
  simpa [skipSpace] using skipSpace_append h []

theorem expect?_append (h : IsSpaces before) (hc : isSpace c = false) (cs : List Char) :
    expect? c (before ++ c :: cs) = some cs := by
  rw [expect?, skipSpace_append h, skipSpace_cons hc]
  exact if_pos rfl

/-! ## Strings -/

theorem hexValue?_of_hexDigit {d : Char} {n : Nat} (h : HexDigit d n) : hexValue? d = some n := by
  have hdecimal : ∀ d < 10, hexValue? (Char.ofNat (48 + d)) = some d := by decide
  have hlower : ∀ d < 16, 10 ≤ d → hexValue? (Char.ofNat (87 + d)) = some d := by decide
  have hupper : ∀ d < 16, 10 ≤ d → hexValue? (Char.ofNat (55 + d)) = some d := by decide
  cases h with
  | decimal h => exact hdecimal n h
  | lower hten h => exact hlower n h hten
  | upper hten h => exact hupper n h hten

/-- The digits of a unit are read as one piece. -/
theorem pieces?_unit {n : Nat} (h : UnitText n text) (rest : List Char) :
    pieces? (text ++ rest) = (pieces? rest).map fun (ps, after) => (.unit n :: ps, after) := by
  obtain ⟨ha, hb, hc, hd⟩ := h
  rename_i a b c d u v w x
  have hunit : unitOf? a b c d = some (((u * 16 + v) * 16 + w) * 16 + x) := by
    simp only [unitOf?, hexValue?_of_hexDigit ha, hexValue?_of_hexDigit hb,
      hexValue?_of_hexDigit hc, hexValue?_of_hexDigit hd, Option.bind_eq_bind, Option.bind_some,
      Option.some.injEq]
    omega
  simp only [List.cons_append, List.nil_append, pieces?, hunit]
  cases pieces? rest <;> rfl

theorem pieces?_letter {l : Char} (h : (l, c) ∈ letters) (rest : List Char) :
    pieces? ('\\' :: l :: rest) = (pieces? rest).map fun (ps, after) => (.char c :: ps, after) := by
  have hescaped : ∀ e ∈ letters, escaped? e.1 = some e.2 ∧ e.1 ≠ 'u' := by decide
  obtain ⟨hvalue, hne⟩ := hescaped _ h
  rw [pieces?]
  · simp only [hvalue]
    cases pieces? rest <;> rfl
  · rintro _ _ _ _ _ rfl
    exact absurd rfl hne

theorem pieces?_plain (control : 32 ≤ c.toNat) (quote : c ≠ '"') (backslash : c ≠ '\\')
    (rest : List Char) :
    pieces? (c :: rest) = (pieces? rest).map fun (ps, after) => (.char c :: ps, after) := by
  have hplain : (decide (c.toNat < 32) || decide (c = '\\')) = false := by
    simp [backslash, control]
  rw [pieces?]
  · rw [hplain, if_neg Bool.false_ne_true]
    cases pieces? rest <;> rfl
  · exact quote
  · exact fun _ _ _ _ _ hc _ => backslash hc
  · exact fun _ _ hc _ => backslash hc

/-- A unit that is no half of a surrogate pair names its character. -/
theorem joinPieces?_unit {n : Nat} (hhigh : isHigh n = false) (hlow : isLow n = false)
    (ps : List Piece) : joinPieces? (.unit n :: ps) = (joinPieces? ps).map (Char.ofNat n :: ·) := by
  cases ps with
  | nil => simp [joinPieces?, hhigh, hlow]
  | cons p ps =>
    cases p with
    | char c => cases h : joinPieces? ps <;> simp [joinPieces?, hhigh, hlow, h]
    | unit m => simp [joinPieces?, hhigh, hlow]

/-- The number of a character is no half of a surrogate pair. -/
theorem isHigh_toNat (c : Char) : isHigh c.toNat = false ∧ isLow c.toNat = false := by
  have hvalid : c.toNat < 0xd800 ∨ 0xdfff < c.toNat ∧ c.toNat < 0x110000 := c.valid
  simp only [isHigh, isLow, Bool.and_eq_false_iff, decide_eq_false_iff_not]
  omega

/-- However a character is written, it is read as pieces that name it. -/
theorem exists_pieces_char (h : CharText c text) : ∃ qs : List Piece,
    (∀ rest, pieces? (text ++ rest) = (pieces? rest).map fun (ps, after) => (qs ++ ps, after)) ∧
    ∀ ps, joinPieces? (qs ++ ps) = (joinPieces? ps).map (c :: ·) := by
  cases h with
  | plain control quote backslash =>
    exact ⟨[.char c], pieces?_plain control quote backslash, fun ps => rfl⟩
  | letter h => exact ⟨[.char c], pieces?_letter h, fun ps => rfl⟩
  | unit h =>
    have hjoin := joinPieces?_unit (isHigh_toNat c).1 (isHigh_toNat c).2
    rw [Char.ofNat_toNat] at hjoin
    exact ⟨[.unit c.toNat], pieces?_unit h, hjoin⟩
  | pair hfirst hsecond hhigh hlow code =>
    rename_i high low first second
    refine ⟨[.unit high, .unit low], fun rest => ?_, fun ps => ?_⟩
    · rw [List.append_assoc, pieces?_unit hfirst, pieces?_unit hsecond, Option.map_map]
      rfl
    · have hpair : (isHigh high && isLow low) = true := by
        simp only [isHigh, isLow, Bool.and_eq_true, decide_eq_true_eq]
        omega
      simp only [List.cons_append, List.nil_append, joinPieces?, hpair, if_true]
      rw [← code, Char.ofNat_toNat]

theorem exists_pieces (h : CharsText cs text) (rest : List Char) :
    ∃ ps, pieces? (text ++ '"' :: rest) = some (ps, rest) ∧ joinPieces? ps = some cs := by
  induction h with
  | nil => exact ⟨[], rfl, rfl⟩
  | cons head _ ih =>
    obtain ⟨ps, hps, hjoin⟩ := ih
    obtain ⟨qs, hqs, hjoins⟩ := exists_pieces_char head
    refine ⟨qs ++ ps, ?_, ?_⟩
    · rw [List.append_assoc, hqs, hps]
      rfl
    · rw [hjoins, hjoin]
      rfl

/-- A string is read whatever follows it. -/
theorem string?_append {s : String} (hbefore : IsSpaces before) (h : StringText s text)
    (rest : List Char) : string? (before ++ (text ++ rest)) = some (s, rest) := by
  obtain ⟨hinside⟩ := h
  obtain ⟨ps, hps, hjoin⟩ := exists_pieces hinside rest
  rw [string?, List.cons_append, expect?_append hbefore (by decide), List.append_assoc,
    List.singleton_append]
  simp [hps, hjoin]

/-! ## Values -/

/-- What may follow a value: nothing, space, or a token that ends it. -/
def Delimits (rest : List Char) : Prop :=
  ∀ c ∈ rest.head?, isSpace c = true ∨ c = ',' ∨ c = ']' ∨ c = '\x7d'

theorem delimits_append {after : List Char} (h : IsSpaces after) (hrest : Delimits rest) :
    Delimits (after ++ rest) := by
  cases after with
  | nil => exact hrest
  | cons c after =>
    intro d hd
    obtain rfl := Option.some.inj hd
    exact .inl (h _ (List.mem_cons_self ..))

/-- The reader reads every text of a value as `a`, whatever space is in front of it and
whatever ends it. -/
structure Reads (read : Reading α) (json : Json) (a : α) : Prop where
  read_eq : ∀ {before text rest : List Char}, IsSpaces before → json.Written text →
    Delimits rest → read (before ++ (text ++ rest)) = some (a, rest)

theorem isSpace_of_isDigit (h : Decimal.isDigit c = true) : isSpace c = false := by
  rw [Bool.eq_false_iff]
  intro hspace
  simp only [isSpace, Bool.or_eq_true, beq_iff_eq] at hspace
  rcases hspace with ((rfl | rfl) | rfl) | rfl <;> exact absurd h (by decide)

/-- A value starts with no space, and with an `n` only if it is `null`. -/
theorem Written.exists_cons {json : Json} (h : json.Written text) :
    ∃ c cs, text = c :: cs ∧ isSpace c = false ∧ (c = 'n' → json = .null) := by
  cases h with
  | null => exact ⟨'n', _, rfl, rfl, fun _ => rfl⟩
  | bool b => cases b <;> exact ⟨_, _, rfl, rfl, fun h => absurd h (by decide)⟩
  | number n =>
    obtain ⟨c, cs, htext, hc⟩ := (Decimal.denotes_intText n).exists_cons
    refine ⟨c, cs, htext, ?_, ?_⟩
    · rcases hc with rfl | hdigit
      · rfl
      · exact isSpace_of_isDigit hdigit
    · rintro rfl
      exact absurd hc (by decide)
  | string h =>
    obtain ⟨-⟩ := h
    exact ⟨'"', _, rfl, rfl, fun h => absurd h (by decide)⟩
  | emptyArray => exact ⟨'[', _, rfl, rfl, fun h => absurd h (by decide)⟩
  | array => exact ⟨'[', _, rfl, rfl, fun h => absurd h (by decide)⟩
  | emptyObject => exact ⟨'\x7b', _, rfl, rfl, fun h => absurd h (by decide)⟩
  | object => exact ⟨'\x7b', _, rfl, rfl, fun h => absurd h (by decide)⟩

theorem reads_string (s : String) : Reads string? (.string s) s := by
  refine ⟨fun {before text rest} hbefore hwritten _ => ?_⟩
  cases hwritten with
  | string h => exact string?_append hbefore h rest

/-- What is read is read also where something is made of it. -/
theorem Reads.map {read : Reading α} {json : Json} {a : α} (h : Reads read json a) (f : α → β) :
    Reads (fun cs => (read cs).map fun (a, after) => (f a, after)) json (f a) := by
  refine ⟨fun {before text rest} hbefore hwritten hrest => ?_⟩
  simp only [h.read_eq hbefore hwritten hrest, Option.map_some]

/-- A member reads a value by adding to a record what another reader makes of it. -/
theorem Reads.adds {read : Reading α} {json : Json} {a : α} (h : Reads read json a) (add : α → σ)
    {member : Reading σ} {final : σ}
    (hmember : ∀ cs, member cs = (read cs).map fun (a, after) => (add a, after))
    (hfinal : add a = final) : Reads member json final :=
  hfinal ▸ funext hmember ▸ h.map add

/-- What may be `null` is read as nothing there. -/
theorem reads_null (read : Reading α) : Reads (orNull? read) .null none := by
  refine ⟨fun {before text rest} hbefore hwritten _ => ?_⟩
  cases hwritten
  have hskip : skipSpace (before ++ ("null".toList ++ rest)) = 'n' :: ("ull".toList ++ rest) := by
    rw [skipSpace_append hbefore]
    exact skipSpace_cons (by decide) _
  have hword : word? "ull" ("ull".toList ++ rest) = some rest := rfl
  simp only [orNull?, hskip, hword, Option.map_some]

theorem Reads.orNull {read : Reading α} {json : Json} {a : α} (h : Reads read json a)
    (hnull : json ≠ .null) : Reads (orNull? read) json (some a) := by
  refine ⟨fun {before text rest} hbefore hwritten hrest => ?_⟩
  obtain ⟨c, cs, rfl, hspace, hn⟩ := hwritten.exists_cons
  have hread := h.read_eq isSpaces_nil hwritten hrest
  rw [List.nil_append] at hread
  rw [orNull?, skipSpace_append hbefore, List.cons_append, skipSpace_cons hspace]
  split
  · next heq => exact absurd (hn (List.cons.inj heq).1) hnull
  · rw [← List.cons_append, hread]
    rfl

/-- An optional value is read if its values are and none of them is `null`. -/
theorem reads_optional {read : Reading α} {form : Form α} {value : Option α}
    (hfits : form.orNull.Fits value) (hnull : ∀ a, form.json a ≠ .null)
    (h : ∀ a, form.Fits a → Reads read (form.json a) a) :
    Reads (orNull? read) (form.orNull.json value) value := by
  cases value with
  | none => exact reads_null read
  | some a => exact (h a (hfits a rfl)).orNull (hnull a)

/-- What follows a value goes on with no digit, and with no fraction or exponent. -/
theorem Delimits.ends_number (h : Delimits rest) :
    (∀ c ∈ rest.head?, Decimal.isDigit c = false) ∧
      (rest.head?.any fun c => c == '.' || c == 'e' || c == 'E') = false := by
  cases rest with
  | nil => simp
  | cons c rest =>
    have hclass : Decimal.isDigit c = false ∧ (c == '.' || c == 'e' || c == 'E') = false := by
      rcases h c rfl with hspace | rfl | rfl | rfl
      · simp only [isSpace, Bool.or_eq_true, beq_iff_eq] at hspace
        rcases hspace with ((rfl | rfl) | rfl) | rfl <;> decide
      all_goals decide
    exact ⟨fun d hd => Option.some.inj hd ▸ hclass.1, hclass.2⟩

/-- The digits of a number are one digit, or start with no zero. -/
theorem natDigits_form (n : Nat) :
    ((Decimal.natDigits n).isEmpty || (Decimal.natDigits n).head? == some '0' &&
      decide (1 < (Decimal.natDigits n).length)) = false := by
  have hnonempty : (Decimal.natDigits n).isEmpty = false :=
    List.isEmpty_eq_false_iff.2 (Decimal.numeral_natDigits n).nonempty
  rw [hnonempty, Bool.false_or, Bool.and_eq_false_iff]
  by_cases hzero : (Decimal.natDigits n).head? = some '0'
  · rw [Decimal.eq_zero_of_head?_natDigits hzero, Decimal.natDigits]
    exact .inr rfl
  · exact .inl (beq_eq_false_iff_ne.2 hzero)

/-- A size is read if 64 bits hold it. -/
theorem reads_size {n : Nat} (h : n < 2 ^ 64) : Reads size? (size n) n := by
  refine ⟨fun {before text rest} hbefore hwritten hrest => ?_⟩
  have htext : text = Decimal.natDigits n := by
    cases hwritten with
    | number => exact Decimal.toList_natText n
  subst htext
  have hnumeral := Decimal.numeral_natDigits n
  have hskip : skipSpace (before ++ (Decimal.natDigits n ++ rest)) =
      Decimal.natDigits n ++ rest := by
    obtain ⟨c, cs, hdigits⟩ := List.exists_cons_of_ne_nil hnumeral.nonempty
    have hfirst : c ∈ Decimal.natDigits n := by
      rw [hdigits]
      exact List.mem_cons_self ..
    have hspace := isSpace_of_isDigit (hnumeral.digits c hfirst)
    rw [skipSpace_append hbefore, hdigits, List.cons_append, skipSpace_cons hspace]
  have htake := Text.takeWhile_append_of_head? hnumeral.digits hrest.ends_number.1
  have hdrop : (Decimal.natDigits n ++ rest).dropWhile Decimal.isDigit = rest := by
    have hsplit := List.takeWhile_append_dropWhile (p := Decimal.isDigit)
      (l := Decimal.natDigits n ++ rest)
    rw [htake] at hsplit
    exact List.append_cancel_left hsplit
  have hvalue : Decimal.ofDigits (Decimal.natDigits n) = n := by
    rw [Decimal.ofDigits_eq, ← hnumeral.value]
  rw [size?]
  simp only [hskip, htake, hdrop, hvalue, natDigits_form, hrest.ends_number.2, Bool.false_eq_true,
    if_false]
  exact if_pos h

/-! ## Objects -/

/-- Reading the members of an object one after the other leads from what was made before to
what is made in the end. -/
inductive ReadsMembers (member : σ → String → Reading σ) : σ → List (String × Json) → σ → Prop
  | nil (made : σ) : ReadsMembers member made [] made
  | cons {name : String} {value : Json} {fields : List (String × Json)} {made next final : σ}
    (head : Reads (member made name) value next) (tail : ReadsMembers member next fields final) :
    ReadsMembers member made ((name, value) :: fields) final

/-- Members are read one after the other if one more name is what each of them adds. -/
theorem readsMembers_of_seen {member : σ → String → Reading σ} {fields : List (String × Json)}
    (seen : List String → σ) {names : List String} (hnodup : (fields.map Prod.fst).Nodup)
    (hnew : ∀ name ∈ fields.map Prod.fst, name ∉ names)
    (h : ∀ names, ∀ field ∈ fields, field.1 ∉ names →
      Reads (member (seen names) field.1) field.2 (seen (field.1 :: names))) :
    ReadsMembers member (seen names) fields (seen ((fields.map Prod.fst).reverse ++ names)) := by
  induction fields generalizing names with
  | nil => exact .nil _
  | cons field fields ih =>
    rw [List.map_cons, List.nodup_cons] at hnodup
    have hhead := h names field (List.mem_cons_self ..) (hnew _ (List.mem_cons_self ..))
    have hfresh : ∀ name ∈ fields.map Prod.fst, name ∉ field.1 :: names := by
      intro name hname hold
      rcases List.mem_cons.1 hold with rfl | hold
      · exact hnodup.1 hname
      · exact hnew name (List.mem_cons_of_mem _ hname) hold
    have htail := ih hnodup.2 hfresh fun names other hother =>
      h names other (List.mem_cons_of_mem _ hother)
    rw [List.map_cons, List.reverse_cons, List.append_assoc]
    exact .cons hhead htail

/-- The members that present a record are read, in whatever order they come, if each field can be
read that was not read before. -/
theorem Presents.readsMembers {R : Type} {fields : List (Field R)}
    {members : List (String × Json)} {record : R} (h : Presents fields members record)
    {member : σ → String → Reading σ} (seen : List String → σ)
    (hfield : ∀ names, ∀ field ∈ fields, field.name ∉ names →
      field.form.Fits (field.get record) →
      Reads (member (seen names) field.name) (field.form.json (field.get record))
        (seen (field.name :: names))) :
    ReadsMembers member (seen []) members (seen (members.map Prod.fst).reverse) := by
  rw [← List.append_nil (members.map Prod.fst).reverse]
  refine readsMembers_of_seen seen h.nodup (fun _ _ => List.not_mem_nil) ?_
  intro names entry hentry hnew
  obtain ⟨field, hmem, hfits, rfl⟩ := h.exists_field hentry
  exact hfield names field hmem hnew hfits

/-- The space in front of the first item can be put aside. -/
theorem Separated.exists_first {written : α → List Char → Prop} {as : List α}
    (h : Separated written as text) : ∃ before a first rest, text = before ++ (first ++ rest) ∧
      IsSpaces before ∧ written a first ∧ Separated written as (first ++ rest) := by
  cases h with
  | single hbefore h hafter =>
    exact ⟨_, _, _, _, rfl, hbefore, h, .single isSpaces_nil h hafter⟩
  | cons hbefore h hafter hrest =>
    exact ⟨_, _, _, _, rfl, hbefore, h, .cons isSpaces_nil h hafter hrest⟩

theorem Separated.length_le {written : α → List Char → Prop} {as : List α}
    (h : Separated written as text) : as.length ≤ text.length + 1 := by
  induction h with
  | single => simp
  | cons _ _ _ _ ih =>
    simp only [List.length_cons, List.length_append]
    omega

theorem goOn_comma {after : List Char} (h : IsSpaces after) (close : Char) (next : Reading σ)
    (made : σ) (rest : List Char) : goOn close next made (after ++ ',' :: rest) = next rest := by
  rw [goOn, skipSpace_append h, skipSpace_cons (by decide)]
  exact if_pos rfl

theorem goOn_close {after : List Char} {close : Char} (h : IsSpaces after) (hclose : close ≠ ',')
    (hspace : isSpace close = false) (next : Reading σ) (made : σ) (rest : List Char) :
    goOn close next made (after ++ close :: rest) = some (made, rest) := by
  rw [goOn, skipSpace_append h, skipSpace_cons hspace]
  exact (if_neg hclose).trans (if_pos rfl)

/-- One member is read and added, and then it is up to what follows. -/
theorem objectMembers?_member {member : σ → String → Reading σ} {name : String} {value : Json}
    {made next : σ} (count : Nat) (hbefore : IsSpaces before)
    (h : MemberText Written (name, value) text) (hreads : Reads (member made name) value next)
    (hrest : Delimits rest) :
    objectMembers? member (count + 1) made (before ++ (text ++ rest)) =
      goOn '\x7d' (objectMembers? member count next) next rest := by
  cases h with
  | named hname hcolon hvalue h =>
    have hmark : isSpace ':' = false := by decide
    rw [objectMembers?, List.append_assoc, string?_append hbefore hname]
    simp only [Option.bind_eq_bind, Option.bind_some, List.append_assoc, List.cons_append,
      expect?_append hcolon hmark, hreads.read_eq hvalue h hrest]

theorem objectMembers?_reads {member : σ → String → Reading σ} {fields : List (String × Json)}
    {made final : σ} {count : Nat} (hcount : fields.length ≤ count)
    (hreads : ReadsMembers member made fields final)
    (h : Separated (MemberText Written) fields text) (rest : List Char) :
    objectMembers? member count made (text ++ '\x7d' :: rest) = some (final, rest) := by
  induction h generalizing made count with
  | single hbefore h hafter =>
    obtain ⟨count, rfl⟩ : ∃ n, count = n + 1 := Nat.exists_eq_add_of_le' hcount
    cases hreads with
    | cons head tail =>
    cases tail
    have hend : Delimits ('\x7d' :: rest) := by simp [Delimits]
    rw [List.append_assoc, List.append_assoc,
      objectMembers?_member count hbefore h head (delimits_append hafter hend)]
    exact goOn_close hafter (by decide) (by decide) _ _ rest
  | @cons _ _ _ _ _ more hbefore h hafter hmore ih =>
    obtain ⟨count, rfl⟩ : ∃ n, count = n + 1 :=
      Nat.exists_eq_add_of_le' (Nat.le_trans (Nat.le_add_left 1 _) hcount)
    cases hreads with
    | cons head tail =>
    have hcomma : Delimits (',' :: (more ++ '\x7d' :: rest)) := by simp [Delimits]
    rw [List.append_assoc, List.append_assoc, List.append_assoc, List.cons_append,
      objectMembers?_member count hbefore h head (delimits_append hafter hcomma),
      goOn_comma hafter]
    exact ih (Nat.le_of_succ_le_succ hcount) tail

theorem object?_append {member : σ → String → Reading σ} {fields : List (String × Json)}
    {start final : σ} (hreads : ReadsMembers member start fields final)
    (h : Separated (MemberText Written) fields text) (rest : List Char) :
    object? member start (text ++ '\x7d' :: rest) = some (final, rest) := by
  obtain ⟨before, field, first, more, rfl, hbefore, hfirst, hstripped⟩ := h.exists_first
  obtain ⟨cs, rfl⟩ : ∃ cs, first = '"' :: cs := by
    cases hfirst with
    | named hname =>
      cases hname
      exact ⟨_, rfl⟩
  have hcount : fields.length ≤ ('"' :: cs ++ more ++ '\x7d' :: rest).length + 1 := by
    have hle := hstripped.length_le
    simp only [List.length_append] at hle ⊢
    omega
  have hskip : skipSpace (before ++ ('"' :: cs ++ more) ++ '\x7d' :: rest) =
      '"' :: cs ++ more ++ '\x7d' :: rest := by
    rw [List.append_assoc, skipSpace_append hbefore]
    exact skipSpace_cons (by decide) _
  rw [object?, hskip]
  exact objectMembers?_reads hcount hreads hstripped rest

/-- An object is an opening brace and what is read as the work of its members. -/
theorem object?_reads {member : σ → String → Reading σ} {fields : List (String × Json)}
    {start final : σ} (hreads : ReadsMembers member start fields final)
    (h : (object fields).Written text) : ∃ inside, text = '\x7b' :: inside ∧
      ∀ rest, object? member start (inside ++ rest) = some (final, rest) := by
  cases h with
  | emptyObject hspace =>
    cases hreads
    refine ⟨_, rfl, fun rest => ?_⟩
    rw [object?, List.append_assoc, skipSpace_append hspace, List.singleton_append,
      skipSpace_cons (by decide)]
    rfl
  | object h =>
    refine ⟨_, rfl, fun rest => ?_⟩
    rw [List.append_assoc, List.singleton_append]
    exact object?_append hreads h rest

/-- A record that is written as an object is read as what its members make. -/
theorem reads_record {member : σ → String → Reading σ} {item : σ → Nat → Reading σ}
    {fields : List (String × Json)} {start final : σ} (h : ReadsMembers member start fields final) :
    Reads (record? member item start) (.object fields) final := by
  refine ⟨fun {before text rest} hbefore hwritten _ => ?_⟩
  obtain ⟨inside, rfl, hinside⟩ := object?_reads h hwritten
  rw [record?, skipSpace_append hbefore, List.cons_append, skipSpace_cons (by decide)]
  exact hinside rest

/-! ## Whole texts -/

/-- What is read from every text of a value is read from a whole text of it. -/
theorem ofText?_of_reads {read : Reading α} {json : Json} {a : α} (h : Reads read json a)
    {text : String} (htext : json.IsTextOf text) : ofText? read text = some a := by
  obtain ⟨before, written, after, hlist, hbefore, hwritten, hafter⟩ := htext
  have hend : Delimits after := by
    have hnil : Delimits [] := by simp [Delimits]
    simpa using delimits_append hafter hnil
  rw [ofText?, hlist, h.read_eq hbefore hwritten hend]
  simp [skipSpace_eq_nil hafter]

end Dispatch.Json
