import Dispatch.Diagnostic.SyntaxError
import Dispatch.Proofs.NameMap
import Mathlib.Data.List.Infix
/-!
# Messages from templates

A template falls into pieces in exactly one way (`Cut`): text before the next opening brace,
then what stands between this brace and the next closing one, and so on; at the end there may
be a brace that none closes. The pieces depend on the template alone. So whatever the values
are, a message shows piece after piece, each with what belongs to it, and the braces of a
value are shown like any other characters (`exists_pieces_render`).
-/
namespace Dispatch.Diagnostic

/-- A piece of a template. -/
inductive Piece where
  | text (cs : List Char)
  /-- What stands between an opening brace and the next closing one. -/
  | slot (inside : List Char)
  /-- What follows an opening brace that no brace closes. -/
  | unclosed (behind : List Char)

namespace Piece

/-- The characters of the template that make up a piece. -/
def source : Piece → List Char
  | text cs => cs
  | slot inside => '\x7b' :: (inside ++ ['\x7d'])
  | unclosed behind => '\x7b' :: behind

/-- The name whose value a piece asks for. -/
def name? : Piece → Option String
  | slot inside => some (String.ofList (Text.trimBlanks inside))
  | text _ => none
  | unclosed _ => none

/-- What a message shows of a piece: the value of its name, and where there is none the piece
as it stands in the template. -/
def shown (values : NameMap String) (piece : Piece) : List Char :=
  match piece.name?.bind values.get? with
  | some value => value.toList
  | none => piece.source

@[simp] theorem shown_text (values : NameMap String) (cs : List Char) :
    (text cs).shown values = cs := rfl

@[simp] theorem shown_slot (values : NameMap String) (inside : List Char) :
    (slot inside).shown values = placeholder values inside := rfl

@[simp] theorem shown_unclosed (values : NameMap String) (behind : List Char) :
    (unclosed behind).shown values = '\x7b' :: behind := rfl

theorem shown_empty (piece : Piece) : piece.shown .empty = piece.source := by
  cases piece <;> rfl

/-- A new value is shown where its name is asked for, and nothing else changes. -/
theorem shown_insert (values : NameMap String) (name value : String) (piece : Piece) :
    piece.shown (values.insert name value) =
      if piece.name? = some name then value.toList else piece.shown values := by
  cases hname : piece.name? with
  | none => simp [shown, hname]
  | some other =>
    simp only [shown, hname, Option.bind_some, NameMap.get?_insert, Option.some.injEq]
    by_cases h : other = name
    · rw [if_pos h, if_pos h]
    · rw [if_neg h, if_neg h]

end Piece

/-- The pieces that characters fall into. An opening brace inside a slot belongs to the slot,
so that slots neither overlap nor contain each other. -/
inductive Cut : List Char → List Piece → Prop where
  | text {text : List Char} : '\x7b' ∉ text → Cut text [.text text]
  | slot {text inside cs : List Char} {pieces : List Piece} :
      '\x7b' ∉ text → '\x7d' ∉ inside → Cut cs pieces →
      Cut (text ++ '\x7b' :: (inside ++ '\x7d' :: cs)) (.text text :: .slot inside :: pieces)
  | unclosed {text behind : List Char} : '\x7b' ∉ text → '\x7d' ∉ behind →
      Cut (text ++ '\x7b' :: behind) [.text text, .unclosed behind]

variable {cs text inside behind : List Char} {pieces others : List Piece}

/-! ## Pieces of a template -/

/-- Nothing of the template is lost or stands in two pieces. -/
theorem Cut.source_eq (h : Cut cs pieces) : pieces.flatMap Piece.source = cs := by
  induction h with
  | text => simp [Piece.source]
  | slot _ _ _ ih => simp [Piece.source, ih]
  | unclosed => simp [Piece.source]

theorem exists_cut (cs : List Char) : ∃ pieces, Cut cs pieces := by
  induction hlength : cs.length using Nat.strongRecOn generalizing cs with
  | ind n ih =>
    subst hlength
    by_cases hopen : '\x7b' ∈ cs
    · obtain ⟨text, rest, rfl, htext⟩ := List.eq_append_cons_of_mem hopen
      by_cases hclose : '\x7d' ∈ rest
      · obtain ⟨inside, cs, rfl, hinside⟩ := List.eq_append_cons_of_mem hclose
        have hshorter : cs.length < (text ++ '\x7b' :: (inside ++ '\x7d' :: cs)).length := by
          simp only [List.length_append, List.length_cons]
          omega
        obtain ⟨pieces, hpieces⟩ := ih _ hshorter cs rfl
        exact ⟨_, .slot htext hinside hpieces⟩
      · exact ⟨_, .unclosed htext hclose⟩
    · exact ⟨_, .text hopen⟩

/-- What stands before the first `c` and what stands behind it are determined. -/
theorem eq_of_append_cons_eq {c : Char} {before before' after after' : List Char}
    (h : c ∉ before) (h' : c ∉ before') (heq : before ++ c :: after = before' ++ c :: after') :
    before = before' ∧ after = after' := by
  rcases List.append_eq_append_iff.1 heq with ⟨more, rfl, hmore⟩ | ⟨more, rfl, hmore⟩
  all_goals
    cases more with
    | nil => simpa [eq_comm] using hmore
    | cons d more =>
      obtain ⟨rfl, -⟩ := List.cons.inj hmore
      simp at h h'

/-- The first piece ends at the first opening brace, a slot at the next closing one, so two
ways to take characters apart go together. -/
theorem Cut.unique (h : Cut cs pieces) (hothers : Cut cs others) : others = pieces := by
  induction h generalizing others with
  | text hopen =>
    cases hothers with
    | text => rfl
    | slot => simp at hopen
    | unclosed => simp at hopen
  | @slot text inside cs pieces hopen hclose _ ih =>
    generalize hwhole : text ++ '\x7b' :: (inside ++ '\x7d' :: cs) = whole at hothers
    cases hothers with
    | text hopen' => simp [← hwhole] at hopen'
    | slot hopen' hclose' hcut =>
      obtain ⟨rfl, hbehind⟩ := eq_of_append_cons_eq hopen hopen' hwhole
      obtain ⟨rfl, rfl⟩ := eq_of_append_cons_eq hclose hclose' hbehind
      rw [ih hcut]
    | unclosed hopen' hclose' =>
      obtain ⟨rfl, rfl⟩ := eq_of_append_cons_eq hopen hopen' hwhole
      simp at hclose'
  | @unclosed text behind hopen hclose =>
    generalize hwhole : text ++ '\x7b' :: behind = whole at hothers
    cases hothers with
    | text hopen' => simp [← hwhole] at hopen'
    | slot hopen' =>
      obtain ⟨rfl, rfl⟩ := eq_of_append_cons_eq hopen hopen' hwhole
      simp at hclose
    | unclosed hopen' =>
      obtain ⟨rfl, rfl⟩ := eq_of_append_cons_eq hopen hopen' hwhole
      rfl

/-! ## Piece after piece -/

theorem fill_append (h : '\x7b' ∉ text) (values : NameMap String) (cs : List Char) :
    fill values none (text ++ cs) = text ++ fill values none cs := by
  induction text with
  | nil => rfl
  | cons c text ih =>
    rw [List.mem_cons, not_or] at h
    have hstep : fill values none (c :: (text ++ cs)) = c :: fill values none (text ++ cs) := by
      rw [fill]
      exact Ne.symm h.1
    rw [List.cons_append, hstep, ih h.2, List.cons_append]

/-- What follows a brace is held as long as no brace closes it. -/
theorem fill_held_append (h : '\x7d' ∉ inside) (values : NameMap String) (held cs : List Char) :
    fill values (some held) (inside ++ cs) =
      fill values (some (inside.reverse ++ held)) cs := by
  induction inside generalizing held with
  | nil => rfl
  | cons c inside ih =>
    rw [List.mem_cons, not_or] at h
    have hstep : fill values (some held) (c :: (inside ++ cs)) =
        fill values (some (c :: held)) (inside ++ cs) := by
      rw [fill]
      exact Ne.symm h.1
    rw [List.cons_append, hstep, ih h.2, List.reverse_cons, List.append_assoc,
      List.singleton_append]

theorem fill_slot (h : '\x7d' ∉ inside) (values : NameMap String) (cs : List Char) :
    fill values none ('\x7b' :: (inside ++ '\x7d' :: cs)) =
      placeholder values inside ++ fill values none cs := by
  rw [fill, fill_held_append h, fill, List.append_nil, List.reverse_reverse]

theorem fill_unclosed (h : '\x7d' ∉ behind) (values : NameMap String) :
    fill values none ('\x7b' :: behind) = '\x7b' :: behind := by
  have hheld := fill_held_append h values [] []
  rw [List.append_nil, List.append_nil] at hheld
  rw [fill, hheld, fill, List.reverse_reverse]

/-- The pass over the characters shows their pieces. -/
theorem Cut.fill_eq (h : Cut cs pieces) (values : NameMap String) :
    fill values none cs = pieces.flatMap (Piece.shown values) := by
  induction h with
  | @text text htext =>
    have hfill := fill_append htext values []
    rw [List.append_nil] at hfill
    simpa [fill] using hfill
  | slot htext hinside _ ih =>
    rw [fill_append htext, fill_slot hinside, ih]
    simp
  | unclosed htext hbehind =>
    rw [fill_append htext, fill_unclosed hbehind]
    simp

theorem Cut.render_eq {template : String} (h : Cut template.toList pieces)
    (values : NameMap String) :
    (render template values).toList = pieces.flatMap (Piece.shown values) := by
  rw [render, String.toList_ofList, h.fill_eq]

theorem ofId?_id (diagnostic : Diagnostic) : ofId? diagnostic.id = some diagnostic := by
  cases diagnostic <;> decide

/-- A template falls into pieces in one way. Every message made of it shows them one after the
other, the value of a name for the slot that asks for it and every other piece as it is. So a
value, with whatever braces, is shown just where its name is asked for, and without values the
template itself is the message. The messages of errors are made in this way. -/
theorem exists_pieces_render (template : String) :
    (∃ pieces,
      (∀ others, Cut template.toList others ↔ others = pieces) ∧
      pieces.flatMap Piece.source = template.toList ∧
      (∀ values, (render template values).toList = pieces.flatMap (Piece.shown values)) ∧
      (∀ values name value, (render template (values.insert name value)).toList =
        pieces.flatMap fun piece =>
          if piece.name? = some name then value.toList else piece.shown values)) ∧
    render template .empty = template ∧
    ∀ (diagnostic : Diagnostic) details,
      (SyntaxError.ofId diagnostic.id details).message = render diagnostic.template details := by
  obtain ⟨pieces, hcut⟩ := exists_cut template.toList
  refine ⟨⟨pieces, fun others => ⟨hcut.unique, ?same⟩, hcut.source_eq, hcut.render_eq, ?insert⟩,
    ?empty, ?message⟩
  case same =>
    rintro rfl
    exact hcut
  case insert =>
    intro values name value
    rw [hcut.render_eq]
    exact List.flatMap_congr fun piece _ => piece.shown_insert values name value
  case empty =>
    rw [← String.toList_inj, hcut.render_eq, ← hcut.source_eq]
    exact List.flatMap_congr fun piece _ => piece.shown_empty
  case message =>
    intro diagnostic details
    rw [SyntaxError.ofId, ofId?_id]

/-- What the values bring along is not looked at again. -/
example : render "{ a } {b} {c} \x7ba" (.ofList [("a", "{b}"), ("b", "{a}")]) =
    "{b} {a} {c} \x7ba" := by decide

end Dispatch.Diagnostic
