import Dispatch.Reader
/-!
# Cutting text at byte offsets

What it means that a cut succeeds: the text is two lists of characters joined, and the first
of them has as many bytes as the offset says. The reader's views of what lies ahead are stated
in these terms.
-/
namespace Dispatch.Text

theorem dropBytes?_eq_some_iff {n : Nat} {cs ds : List Char} :
    dropBytes? n cs = some ds ↔ ∃ pre, cs = pre ++ ds ∧ byteSize pre = n := by
  constructor
  · intro h
    induction cs generalizing n with
    | nil =>
      simp only [dropBytes?] at h
      split at h
      · next hn => exact ⟨[], by simpa using h, hn.symm⟩
      · simp at h
    | cons c cs ih =>
      simp only [dropBytes?] at h
      split at h
      · next hn => exact ⟨[], by simpa using h, hn.symm⟩
      · split at h
        · next hc =>
          obtain ⟨pre, rfl, hpre⟩ := ih h
          exact ⟨c :: pre, rfl, by simp only [byteSize_cons]; omega⟩
        · simp at h
  · rintro ⟨pre, rfl, rfl⟩
    exact dropBytes?_byteSize_append pre ds

/-- Beyond a first part, cutting is cutting the second. -/
theorem dropBytes?_byteSize_add (cs ds : List Char) (n : Nat) :
    dropBytes? (byteSize cs + n) (cs ++ ds) = dropBytes? n ds := by
  induction cs with
  | nil => simp
  | cons c cs ih =>
    have hpos := Char.utf8Size_pos c
    have hne : ¬c.utf8Size + byteSize cs + n = 0 := by omega
    have hle : c.utf8Size ≤ c.utf8Size + byteSize cs + n := by omega
    have hrest : c.utf8Size + byteSize cs + n - c.utf8Size = byteSize cs + n := by omega
    rw [List.cons_append, dropBytes?, byteSize_cons, if_neg hne, if_pos hle, hrest, ih]

/-- The character that starts at an offset. -/
def charAt? (s : String) (offset : Nat) : Option Char :=
  (dropBytes? offset s.toList).bind List.head?

@[simp] theorem size_append (s t : String) : size (s ++ t) = size s + size t := by
  simp [size]

theorem size_pos {s : String} (h : s ≠ "") : 0 < size s := by
  cases hs : s.toList with
  | nil => exact absurd (String.toList_eq_nil_iff.1 hs) h
  | cons c cs =>
    have hc := c.utf8Size_pos
    simp only [size, hs, byteSize_cons]
    omega

theorem slice?_of_toList_eq {s : String} {pre mid post : List Char}
    (h : s.toList = pre ++ (mid ++ post)) :
    slice? s (byteSize pre) (byteSize pre + byteSize mid) = some (String.ofList mid) := by
  simp [slice?, h]

theorem eq_nil_of_byteSize_eq_zero {cs : List Char} (h : byteSize cs = 0) : cs = [] := by
  cases cs with
  | nil => rfl
  | cons c cs =>
    have hpos := c.utf8Size_pos
    rw [byteSize_cons] at h
    omega

/-- Of two beginnings of a text, the one with fewer bytes is a beginning of the other. -/
theorem exists_append_of_byteSize_le {as bs cs ds : List Char} (h : as ++ bs = cs ++ ds)
    (hle : byteSize as ≤ byteSize cs) : ∃ es, cs = as ++ es ∧ bs = es ++ ds := by
  rcases List.append_eq_append_iff.1 h with ⟨es, rfl, rfl⟩ | ⟨es, rfl, rfl⟩
  · exact ⟨es, rfl, rfl⟩
  · have hes : es = [] := by
      refine eq_nil_of_byteSize_eq_zero ?_
      rw [byteSize_append] at hle
      omega
    exact ⟨[], by simp [hes], by simp [hes]⟩

/-- An offset is a boundary where the text falls into two parts. -/
theorem isBoundary_iff {s : String} {n : Nat} :
    isBoundary s n = true ↔ ∃ pre post, s.toList = pre ++ post ∧ byteSize pre = n := by
  simp only [isBoundary, Option.isSome_iff_exists, dropBytes?_eq_some_iff]
  exact exists_comm

theorem le_size_of_isBoundary {s : String} {n : Nat} (h : isBoundary s n = true) : n ≤ size s := by
  obtain ⟨pre, post, htext, rfl⟩ := isBoundary_iff.1 h
  rw [size, htext, byteSize_append]
  exact Nat.le_add_right ..

theorem isBoundary_zero (s : String) : isBoundary s 0 = true :=
  isBoundary_iff.2 ⟨[], s.toList, rfl, rfl⟩

/-- The offset behind a character is a boundary. -/
theorem isBoundary_of_charAt? {s : String} {n : Nat} {c : Char} (h : charAt? s n = some c) :
    isBoundary s (n + c.utf8Size) = true := by
  obtain ⟨cs, hcs, hhead⟩ := Option.bind_eq_some_iff.1 h
  obtain ⟨pre, htext, rfl⟩ := dropBytes?_eq_some_iff.1 hcs
  obtain ⟨post, rfl⟩ := List.head?_eq_some_iff.1 hhead
  refine isBoundary_iff.2 ⟨pre ++ [c], post, ?_, ?_⟩
  · simpa using htext
  · simp

/-- A separator has one byte. -/
theorem isBoundary_behind_separator {s : String} {n : Nat} (h : charAt? s n = some separator) :
    isBoundary s (n + 1) = true :=
  isBoundary_of_charAt? h

/-- A text can be cut where it can be cut off. -/
theorem isSome_takeBytes? (n : Nat) (cs : List Char) :
    (takeBytes? n cs).isSome = (dropBytes? n cs).isSome := by
  induction cs generalizing n with
  | nil =>
    rw [takeBytes?, dropBytes?]
  | cons c cs ih =>
    rw [takeBytes?, dropBytes?]
    split
    · rfl
    · split
      · rw [Option.isSome_map, ih]
      · rfl

/-- There is a text between two offsets exactly if they are boundaries in order. -/
theorem isSome_slice?_iff {s : String} {start stop : Nat} :
    (slice? s start stop).isSome = true ↔
      start ≤ stop ∧ isBoundary s start = true ∧ isBoundary s stop = true := by
  rw [slice?]
  split
  · next hle =>
    simp only [hle, true_and, Option.isSome_map]
    constructor
    · intro h
      obtain ⟨mid, hmid⟩ := Option.isSome_iff_exists.1 h
      obtain ⟨ds, hds, htake⟩ := Option.bind_eq_some_iff.1 hmid
      obtain ⟨pre, htext, hpre⟩ := dropBytes?_eq_some_iff.1 hds
      have hdrop : (dropBytes? (stop - start) ds).isSome = true := by
        rw [← isSome_takeBytes?, htake, Option.isSome_some]
      obtain ⟨post, hpost⟩ := Option.isSome_iff_exists.1 hdrop
      obtain ⟨mid', rfl, hmid'⟩ := dropBytes?_eq_some_iff.1 hpost
      refine ⟨isBoundary_iff.2 ⟨pre, _, htext, hpre⟩,
        isBoundary_iff.2 ⟨pre ++ mid', post, by rw [htext, List.append_assoc], ?_⟩⟩
      rw [byteSize_append]
      omega
    · rintro ⟨hstart, hstop⟩
      obtain ⟨pre, ds, htext, rfl⟩ := isBoundary_iff.1 hstart
      obtain ⟨upTo, post, htext', rfl⟩ := isBoundary_iff.1 hstop
      obtain ⟨mid, rfl, rfl⟩ := exists_append_of_byteSize_le (htext.symm.trans htext') hle
      rw [byteSize_append, Nat.add_sub_cancel_left, htext, dropBytes?_byteSize_append,
        Option.bind_some, takeBytes?_byteSize_append, Option.isSome_some]
  · next hle => simp [hle]

/-- A run ends in front of a character that is not of its class. -/
theorem takeWhile_append_of_head? {p : Char → Bool} {xs tail : List Char}
    (hxs : ∀ c ∈ xs, p c = true) (htail : ∀ c ∈ tail.head?, p c = false) :
    (xs ++ tail).takeWhile p = xs := by
  rw [List.takeWhile_append_of_pos hxs]
  cases tail with
  | nil => simp
  | cons c tail => simp [htail c rfl]

end Dispatch.Text

namespace Dispatch.Reader

theorem rest?_ofString (line : String) : (ofString line).rest? = some line.toList :=
  Text.dropBytes?_zero _

theorem rest?_eq_some_iff {r : Reader} {cs : List Char} :
    r.rest? = some cs ↔ ∃ pre, r.input.toList = pre ++ cs ∧ Text.byteSize pre = r.cursor :=
  Text.dropBytes?_eq_some_iff

theorem isOnBoundary_iff {r : Reader} : r.isOnBoundary = true ↔ ∃ cs, r.rest? = some cs :=
  Option.isSome_iff_exists

theorem isOnBoundary_ofString (line : String) : (ofString line).isOnBoundary = true :=
  isOnBoundary_iff.2 ⟨_, rest?_ofString line⟩

/-- A cursor between characters is within the input. -/
theorem cursor_le_size {r : Reader} (h : r.isOnBoundary = true) : r.cursor ≤ Text.size r.input :=
  Text.le_size_of_isBoundary h

theorem rest_eq_of_rest? {r : Reader} {cs : List Char} (h : r.rest? = some cs) : r.rest = cs := by
  simp [rest, h]

theorem peek_eq_some_iff {r : Reader} {c : Char} :
    r.peek = some c ↔ ∃ cs, r.rest? = some (c :: cs) := by
  cases h : r.rest? with
  | none => simp [peek, rest, h]
  | some cs => cases cs <;> simp [peek, rest, h]

theorem canReadBytes_iff {r : Reader} {n : Nat} :
    r.canReadBytes n = true ↔ r.cursor + n ≤ r.totalSize := by
  simp [canReadBytes]

theorem canRead_iff {r : Reader} : r.canRead = true ↔ r.cursor + 1 ≤ r.totalSize :=
  canReadBytes_iff

/-- There is something to read in a line that is not empty. -/
theorem canRead_ofString {line : String} (h : line ≠ "") : (ofString line).canRead = true := by
  have hsize := Text.size_pos h
  rw [canRead_iff]
  simp only [ofString, totalSize]
  omega

/-- Where several bytes are left, one is. -/
theorem canRead_of_canReadBytes {r : Reader} {n : Nat} (h : r.canReadBytes (n + 1) = true) :
    r.canRead = true := by
  rw [canReadBytes_iff] at h
  rw [canRead_iff]
  omega

/-- What is ahead of a cursor between characters has the bytes that remain. -/
theorem byteSize_of_rest? {r : Reader} {cs : List Char} (h : r.rest? = some cs) :
    r.cursor + Text.byteSize cs = r.totalSize := by
  obtain ⟨pre, htext, hcursor⟩ := rest?_eq_some_iff.1 h
  simp [totalSize, Text.size, htext, hcursor]

/-- Where no character is ahead, there is nothing left to read. -/
theorem canRead_of_rest?_nil {r : Reader} (h : r.rest? = some []) : r.canRead = false := by
  have hsize := byteSize_of_rest? h
  rw [Bool.eq_false_iff, ne_eq, canRead_iff, ← hsize, Text.byteSize_nil]
  omega

/-- Where a character is ahead, there is something left to read. -/
theorem canRead_of_rest?_cons {r : Reader} {first : Char} {cs : List Char}
    (h : r.rest? = some (first :: cs)) : r.canRead = true := by
  have hsize := byteSize_of_rest? h
  have hfirst := first.utf8Size_pos
  rw [Text.byteSize_cons] at hsize
  rw [canRead_iff]
  omega

/-- Moving over the first of the characters ahead leaves the others ahead. -/
theorem rest?_advance {r : Reader} {cs ds : List Char} (h : r.rest? = some (cs ++ ds)) :
    (r.advance cs).rest? = some ds := by
  obtain ⟨pre, htext, hcursor⟩ := rest?_eq_some_iff.1 h
  refine rest?_eq_some_iff.2 ⟨pre ++ cs, ?_, ?_⟩
  · simpa [advance] using htext
  · simp [advance, hcursor]

theorem advance_advance (r : Reader) (cs ds : List Char) :
    (r.advance cs).advance ds = r.advance (cs ++ ds) := by
  simp [advance, Nat.add_assoc]

/-- A reader of the same text can be set back. -/
theorem seek_cursor {r moved : Reader} (h : moved.input = r.input) (hr : r.isOnBoundary = true) :
    moved.seek r.cursor = r := by
  simp only [seek, startingAt, h, Nat.min_eq_left (cursor_le_size hr)]

/-- A reader that is set to where another one has moved to stands there too. -/
theorem seek_advance {r : Reader} {cs ds : List Char} (h : r.rest? = some (cs ++ ds)) :
    r.seek (r.advance cs).cursor = r.advance cs := by
  have hsize := byteSize_of_rest? h
  have hwithin : r.cursor + Text.byteSize cs ≤ Text.size r.input := by
    rw [Text.byteSize_append, totalSize] at hsize
    omega
  simp only [seek, startingAt, advance, Nat.min_eq_left hwithin]

end Dispatch.Reader
