import Dispatch.Proofs.Parse.Places
import Dispatch.Proofs.Parse.Route
import Dispatch.Proofs.Tree.Arena
/-!
# What the errors of a parse say

A parse that ends with errors has come to a standstill at a node, and it has tried every child
of that node which the principal may use and which is an argument or the word ahead. None of
them led on, and each left one error, in the order of the children. `Offspring.FailsWith`
lists the ways in which a child fails, and `Dispatcher.Explains` says that the errors are
these, no more and no fewer.

A literal is looked at twice: it is tried if it is the word ahead, and it then has to stand at
the reader as a word of its own. The two tests agree (`Reader.peekWord_eq_iff`), so a literal
that is tried fails by the limit of redirects only.
-/
namespace Dispatch
variable {S E M : Type}

namespace Reader

/-- The text stands ahead, and behind it the input ends or goes on with a separator. -/
def spells (r : Reader) (text : String) : Bool :=
  text.toList.isPrefixOf r.rest &&
    ((r.advance text.toList).cursor == r.totalSize ||
      (r.advance text.toList).peek == some separator)

theorem spells_iff {r : Reader} (h : r.isOnBoundary = true) {text : String} :
    r.spells text = true ↔ ∃ tail, r.rest? = some (text.toList ++ tail) ∧ EndsWord tail := by
  obtain ⟨cs, hcs⟩ := isOnBoundary_iff.1 h
  simp only [spells, rest_eq_of_rest? hcs, Bool.and_eq_true, List.isPrefixOf_iff_prefix,
    Bool.or_eq_true, beq_iff_eq, hcs, Option.some_inj]
  constructor
  · rintro ⟨⟨tail, rfl⟩, ends⟩
    have htail := rest?_advance hcs
    refine ⟨tail, rfl, fun c hc => ?_⟩
    rcases ends with atEnd | space
    · have hsize := byteSize_of_rest? htail
      have hnil : tail = [] := Text.eq_nil_of_byteSize_eq_zero (by
        rw [atEnd] at hsize
        exact Nat.left_eq_add.1 hsize.symm)
      simp [hnil] at hc
    · obtain ⟨ds, hds⟩ := peek_eq_some_iff.1 space
      rw [htail] at hds
      simpa [Option.some.inj hds, eq_comm] using hc
  · rintro ⟨tail, rfl, hends⟩
    refine ⟨List.prefix_append _ _, ?_⟩
    have htail := rest?_advance hcs
    cases tail with
    | nil =>
      have hsize := byteSize_of_rest? htail
      exact .inl hsize
    | cons c tail =>
      obtain rfl : c = separator := hends c rfl
      exact .inr (peek_eq_some_iff.2 ⟨tail, htail⟩)

/-- A text is the word ahead if it stands ahead as a word of its own, unless it has a
separator in it. -/
theorem peekWord_eq_iff {r : Reader} (h : r.isOnBoundary = true) {text : String} :
    r.peekWord = text ↔ (∀ c ∈ text.toList, c ≠ separator) ∧ r.spells text = true := by
  rw [spells_iff h]
  constructor
  · rintro rfl
    obtain ⟨tail, hrest, hword, hends⟩ := exists_endsWord h
    exact ⟨hword, tail, hrest, hends⟩
  · rintro ⟨hword, tail, hrest, hends⟩
    exact peekWord_eq hrest hword hends

end Reader

/-! ## How a child fails -/

/-- Why a child that is tried in a context does not lead on. -/
inductive Offspring.FailsWith (d : Dispatcher S E M) (c : Context S E M) (r : Reader)
    (child : Offspring S E M) : SyntaxError → Prop
  /-- It takes nothing. -/
  | unread {error : SyntaxError} (refused : child.label.take c r = .error error) :
    FailsWith d c r child error
  /-- What it takes is not set apart from what follows. -/
  | cutOff {taken : Taken r} (takes : child.label.take c r = .ok taken)
    (cut : taken.isCutOff = true) :
    FailsWith d c r child (taken.after.error .expectedSeparator [])
  /-- It matches and redirects, but no further redirect may be followed. -/
  | limited {taken : Taken r} {target : Nat} (matched : child.Matches c taken)
    (more : taken.after.canRead = true) (redirect : child.node.redirect = some target)
    (limit : d.config.maxRedirectDepth < c.redirectDepth + 1) :
    FailsWith d c r child (taken.after.pastSeparator.error .redirectLimit
      [("limit", Decimal.natText d.config.maxRedirectDepth)])

namespace Dispatcher
variable {d : Dispatcher S E M} {c : Context S E M} {r : Reader} {child : Offspring S E M}
  {error : SyntaxError}

theorem trial_eq_failed_iff : d.trial c r child = .failed error ↔ child.FailsWith d c r error := by
  constructor
  · intro h
    cases htake : child.label.take c r with
    | error refusal =>
      rw [trial_of_take_error htake] at h
      obtain rfl := Attempt.failed.inj h
      exact .unread htake
    | ok taken =>
      cases hcut : taken.isCutOff with
      | true =>
        rw [trial_of_isCutOff htake hcut] at h
        obtain rfl := Attempt.failed.inj h
        exact .cutOff htake hcut
      | false =>
        have matched : child.Matches c taken := ⟨htake, hcut⟩
        rw [trial_of_matches matched] at h
        split at h
        · next more =>
          split at h
          · next target redirect =>
            split at h
            · next limit =>
              obtain rfl := Attempt.failed.inj h
              exact .limited matched more redirect limit
            · cases h
          · split at h <;> cases h
        · cases h
  · rintro (htake | ⟨htake, hcut⟩ | ⟨matched, more, redirect, limit⟩)
    · exact trial_of_take_error htake
    · exact trial_of_isCutOff htake hcut
    · rw [trial_of_matches matched, if_pos more]
      simp only [redirect, if_pos limit]

end Dispatcher

/-- Where a literal is the word ahead, it fails only because no further redirect may be
followed. -/
theorem Offspring.FailsWith.of_literal {d : Dispatcher S E M} {c : Context S E M} {r : Reader}
    {child : Offspring S E M} {error : SyntaxError} (h : child.FailsWith d c r error)
    (hr : r.isOnBoundary = true) {text : String} (hlabel : child.label = .literal text)
    (hword : r.peekWord = text) :
    child.node.redirect ≠ none ∧ d.config.maxRedirectDepth < c.redirectDepth + 1 ∧
      error = (r.advance text.toList).pastSeparator.error .redirectLimit
        [("limit", Decimal.natText d.config.maxRedirectDepth)] := by
  obtain ⟨hseparate, hspells⟩ := (Reader.peekWord_eq_iff hr).1 hword
  obtain ⟨tail, hrest, hends⟩ := (Reader.spells_iff hr).1 hspells
  obtain ⟨taken, htake, -⟩ := Label.take_word hrest hseparate hends c
  rw [← hlabel] at htake
  cases h with
  | unread refused => simp [htake] at refused
  | @cutOff taken takes cut =>
    -- Behind the word there is nothing, or a separator.
    rw [hlabel] at takes
    obtain ⟨-, -, hafter⟩ := Label.take_literal takes
    have htail : taken.after.rest? = some tail := by
      rw [hafter]
      exact Reader.rest?_advance hrest
    simp only [Taken.isCutOff, Bool.and_eq_true, bne_iff_ne, Reader.canRead_iff] at cut
    cases tail with
    | nil =>
      have hsize := Reader.byteSize_of_rest? htail
      rw [Text.byteSize_nil] at hsize
      omega
    | cons first rest =>
      obtain rfl : first = separator := hends first rfl
      exact absurd (Reader.peek_eq_some_iff.2 ⟨rest, htail⟩) cut.2
  | @limited taken target matched more redirect limit =>
    have takes := matched.1
    rw [hlabel] at takes
    obtain ⟨-, -, hafter⟩ := Label.take_literal takes
    refine ⟨?_, limit, ?_⟩
    · simp [redirect]
    · rw [hafter]

/-! ## Where a parse stands still -/

/-- The last visited node of the innermost context, or the node where that context starts. -/
def Parse.standstill (p : Parse S E M) : Nat := p.chain.last.behind p.chain.last.nodes

/-- Whether a node is tried: the principal may use it, and it is an argument or the word
ahead. -/
def Tree.tries (t : Tree S E M) (r : Reader) (source : S) (id : Nat) : Bool :=
  (t.node? id).any fun node =>
    node.canUse source && node.label.any fun label => label.fits r.peekWord

theorem Tree.map_id_eligible (t : Tree S E M) (parent : Nat) (r : Reader) (source : S) :
    (t.eligible parent r source).map Offspring.id =
      (t.childIds parent).filter (t.tries r source) := by
  have htried : ∀ id, (t.tried? r source id).map Offspring.id =
      if t.tries r source id then some id else none := by
    intro id
    cases hnode : t.node? id with
    | none => simp [tried?, tries, hnode]
    | some node =>
      cases hlabel : node.label with
      | none => simp [tried?, tries, hnode, hlabel]
      | some label =>
        simp only [tried?, tries, hnode, hlabel, Option.bind_eq_bind, Option.bind_some,
          Option.any_some, Bool.and_comm (node.canUse source)]
        split <;> rfl
  rw [eligible_eq, List.map_filterMap, ← List.filterMap_eq_filter]
  refine List.filterMap_congr fun id _ => ?_
  rw [htried, Option.guard]

namespace Dispatcher
variable {d : Dispatcher S E M} {source : S} {node : Nat} {r : Reader} {c : Context S E M}
  {p : Parse S E M}

/-- A parse stays between characters. -/
theorem Yields.isOnBoundary (h : d.Yields node r c p) (hr : r.isOnBoundary = true) :
    p.reader.isOnBoundary = true := by
  induction h with
  | stuck _ => exact hr
  | ended _ matched _ => exact Label.isOnBoundary_of_take matched.1 hr
  | descended _ matched _ more _ ih =>
    exact ih (Reader.isOnBoundary_pastSeparator
      (matched.peek (Reader.canRead_of_canReadBytes more)))
  | redirected _ matched _ more _ _ ih =>
    exact ih (Reader.isOnBoundary_pastSeparator (matched.peek more))

/-- The errors of a parse are those of the children tried where it stands still. -/
theorem Yields.survey_standstill (h : d.Yields node r c p) (here : c.behind c.nodes = node)
    (failed : p.errors ≠ []) :
    d.survey p.standstill p.reader p.chain.last = .choice p.errors [] := by
  induction h with
  | @stuck node r c errors survey =>
    change d.survey (c.behind c.nodes) r c = .choice errors []
    rw [here]
    exact survey
  | ended _ _ _ => exact absurd rfl failed
  | @descended _ _ c child taken _ _ _ _ _ _ ih =>
    refine ih ?_ failed
    rw [Context.behind, child.visit_nodes, List.getLast?_concat]
    rfl
  | @redirected _ _ c child taken target p _ _ _ _ _ _ ih =>
    have hlast : (Chain.enter (child.visit c taken) p.chain).last = p.chain.last :=
      Chain.last_cons ..
    rw [Parse.standstill, hlast]
    exact ih rfl failed

/-- The errors of a parse are those of the children of a node, each of which was tried and
failed. -/
structure Explains (d : Dispatcher S E M) (source : S) (p : Parse S E M) : Prop where
  /-- There is one for each child that the principal may use and that is an argument or the
  word ahead, in the order of the children. -/
  ids_eq : p.errors.map (·.1) = (d.tree.childIds p.standstill).filter (d.tree.tries p.reader source)
  /-- In a tree that calls lead to, these are different children. -/
  nodup : d.tree.Grown → (p.errors.map (·.1)).Nodup
  /-- Each child failed with its error where the parse stands still. -/
  fails : ∀ id error, (id, error) ∈ p.errors → ∃ child : Offspring S E M, child.id = id ∧
    d.tree.Offers source child ∧ child.FailsWith d p.chain.last p.reader error
  /-- A literal among them stands ahead as a word of its own, and failed by the limit of
  redirects.
  -/
  literals : ∀ id error node text, (id, error) ∈ p.errors → d.tree.node? id = some node →
    node.label = some (.literal text) → p.reader.spells text = true ∧ node.redirect ≠ none ∧
      d.config.maxRedirectDepth < p.chain.last.redirectDepth + 1 ∧
      error.id = Diagnostic.redirectLimit.id ∧ error.id ≠ Diagnostic.literalIncorrect.id

/-- At the end of a parse with errors, trying the children once more leaves these errors and
no way to go on. -/
theorem survey_parse (d : Dispatcher S E M) {input : String} {source : S}
    (failed : (d.parse input source).errors ≠ []) :
    (d.parse input source).chain.last.source = source ∧
      (d.parse input source).reader.isOnBoundary = true ∧
      d.survey (d.parse input source).standstill (d.parse input source).reader
        (d.parse input source).chain.last = .choice (d.parse input source).errors [] := by
  have hyields := d.parseAt_yields Tree.root (.ofString input) (.start source input Tree.root 0)
  have hderives : d.Derives source input Tree.root 0 0 (d.parse input source).chain.outer
      (d.parse input source).chain.inner :=
    d.parseAt_derives (Reader.isOnBoundary_ofString input) Tree.root source
  obtain ⟨start, depth, derived⟩ :=
    hderives.isDerived (d.parse input source).chain.last (List.getLastD_mem_cons ..)
  exact ⟨derived.source_eq, hyields.isOnBoundary (Reader.isOnBoundary_ofString input),
    hyields.survey_standstill rfl failed⟩

section
variable {r : Reader} {c : Context S E M} {errors : List (Nat × SyntaxError)}

/-- Where there is no way to go on, every child that is tried fails. -/
theorem exists_failsWith (survey : d.survey node r c = .choice errors []) {child : Offspring S E M}
    (hchild : child ∈ d.tree.eligible node r c.source) :
    ∃ error, d.trial c r child = .failed error := by
  obtain ⟨-, hnone, hunsettled⟩ := Survey.ofAttempts_eq_choice survey
  cases htrial : d.trial c r child with
  | failed error => exact ⟨error, rfl⟩
  | possible p =>
    have hpossible := List.filterMap_eq_nil_iff.1 hnone.symm child hchild
    simp [htrial, Attempt.possible?] at hpossible
  | settled p => exact absurd htrial (hunsettled child hchild p)

theorem map_fst_errors (survey : d.survey node r c = .choice errors []) :
    errors.map (·.1) = (d.tree.childIds node).filter (d.tree.tries r c.source) := by
  obtain ⟨rfl, -, -⟩ := Survey.ofAttempts_eq_choice survey
  rw [← d.tree.map_id_eligible, List.map_filterMap, ← List.filterMap_eq_map]
  refine List.filterMap_congr fun child hchild => ?_
  obtain ⟨error, htrial⟩ := exists_failsWith survey hchild
  simp [htrial, Attempt.error?]

theorem exists_of_mem_errors (survey : d.survey node r c = .choice errors []) {id : Nat}
    {error : SyntaxError} (h : (id, error) ∈ errors) :
    ∃ child ∈ d.tree.eligible node r c.source, child.id = id ∧ child.FailsWith d c r error := by
  obtain ⟨rfl, -, -⟩ := Survey.ofAttempts_eq_choice survey
  obtain ⟨child, hchild, hentry⟩ := List.mem_filterMap.1 h
  obtain ⟨found, htrial⟩ := exists_failsWith survey hchild
  simp only [htrial, Attempt.error?, Option.map_some, Option.some_inj, Prod.mk.injEq] at hentry
  obtain ⟨rfl, rfl⟩ := hentry
  exact ⟨child, hchild, rfl, trial_eq_failed_iff.1 htrial⟩

end

/-- The errors of a parse, if there are any, are exactly those of the children that were tried
where it stands still. -/
theorem explains_parse (d : Dispatcher S E M) (input : String) (source : S)
    (failed : (d.parse input source).errors ≠ []) : d.Explains source (d.parse input source) := by
  obtain ⟨hsource, boundary, survey⟩ := d.survey_parse failed
  have hids := map_fst_errors survey
  rw [hsource] at hids
  refine ⟨hids, fun grown => ?_, fun id error h => ?_, fun id error node text h hnode hlabel => ?_⟩
  · rw [hids]
    exact (List.Nodup.of_map _ (grown.arranged.names _)).filter _
  · obtain ⟨child, hchild, hid, hfailed⟩ := exists_of_mem_errors survey h
    obtain ⟨-, hlookup, hlabel, -, huse⟩ := Tree.mem_eligible_iff.1 hchild
    rw [hsource] at huse
    exact ⟨child, hid, ⟨hlookup, hlabel, huse⟩, hfailed⟩
  · obtain ⟨child, hchild, rfl, hfailed⟩ := exists_of_mem_errors survey h
    obtain ⟨-, hlookup, htag, hfits, -⟩ := Tree.mem_eligible_iff.1 hchild
    obtain rfl : child.node = node := Option.some.inj (hlookup.symm.trans hnode)
    have hliteral : child.label = .literal text := Option.some.inj (htag.symm.trans hlabel)
    rw [hliteral] at hfits
    have hword : (d.parse input source).reader.peekWord = text := (beq_iff_eq.1 hfits).symm
    have hcodes : Diagnostic.redirectLimit.id ≠ Diagnostic.literalIncorrect.id := by decide
    obtain ⟨hredirect, hlimit, rfl⟩ := hfailed.of_literal boundary hliteral hword
    exact ⟨((Reader.peekWord_eq_iff boundary).1 hword).2, hredirect, hlimit, rfl, hcodes⟩

/-- `again` goes back to the root, once, and a number may stand there as well. -/
def onceMore : Dispatcher Unit Nat Unit where
  tree := Tree.empty.afterAll [.register ((Sprout.literal "again").redirectTo Tree.root),
    .addChild Tree.root (Sprout.argument "n" (StandardParser.integer 0 9).toParser)]
  config := { maxRedirectDepth := 1 }

/-- The second `again` is no number, and is one redirect too many. -/
theorem explains_again_again : (onceMore.parse "again again 5" ()).errors ≠ [] ∧
    onceMore.Explains () (onceMore.parse "again again 5" ()) ∧
    (onceMore.parse "again again 5" ()).errors.map (fun (id, error) => (id, error.id)) =
      [(1, "CMD2006"), (2, "CMD1001")] := by
  have failed : (onceMore.parse "again again 5" ()).errors ≠ [] := by decide +kernel
  exact ⟨failed, onceMore.explains_parse "again again 5" () failed, by decide +kernel⟩

end Dispatcher
end Dispatch
