import Dispatch.Proofs.Parse.FirstWord
import Dispatch.Proofs.Parse.Route
import Dispatch.Proofs.Tree.Change
/-!
# Which child decides

Among the children of a node, those whose redirect is followed have precedence: the first of
them decides what the parse of the node is, whatever its siblings leave of the input
(`Settles`). Only where no redirect is followed does the rank decide, and then a child that
leaves nothing of the input and no errors is not beaten. So such a child makes the parse
complete exactly if the redirect that is followed, if there is one, does so too.
-/
namespace Dispatch
variable {S E M : Type}

namespace Parse

/-- No parse has a lesser rank than the best one. -/
theorem rank_best_le (first : Parse S E M) (rest : List (Parse S E M)) :
    ∀ q ∈ first :: rest, (best first rest).rank ≤ q.rank := by
  simp only [best]
  induction rest generalizing first with
  | nil => simp
  | cons next rest ih =>
    intro q hq
    rw [List.foldl_cons]
    split
    · next hless =>
      rcases List.mem_cons.1 hq with rfl | hq
      · exact Nat.le_trans (ih next next List.mem_cons_self) (Nat.le_of_lt hless)
      · exact ih next q hq
    · next hless =>
      have hfirst := ih first first List.mem_cons_self
      rcases List.mem_cons.1 hq with rfl | hq
      · exact hfirst
      · rcases List.mem_cons.1 hq with rfl | hq
        · exact Nat.le_trans hfirst (Nat.not_lt.1 hless)
        · exact ih first q (List.mem_cons_of_mem first hq)

/-- A complete parse without errors among others makes the best of them complete. -/
theorem isComplete_best {first p : Parse S E M} {rest : List (Parse S E M)}
    (hp : p ∈ first :: rest) (complete : p.isComplete = true) (clean : p.errors = []) :
    (best first rest).isComplete = true := by
  have hrank := rank_best_le first rest p hp
  rw [rank_eq_zero complete clean] at hrank
  by_contra hincomplete
  have := two_le_rank (Bool.eq_false_iff.2 hincomplete)
  omega

end Parse

namespace Dispatcher
variable {d : Dispatcher S E M} {node : Nat} {r : Reader} {c : Context S E M}
  {child : Offspring S E M} {p q : Parse S E M}

/-- What comes of a child if the parse goes on with it. -/
def Branch (d : Dispatcher S E M) (c : Context S E M) (r : Reader) (child : Offspring S E M)
    (p : Parse S E M) : Prop :=
  d.trial c r child = .possible p ∨ d.trial c r child = .settled p

/-- A child redirects, and it matches with input left, within the limit of redirects. -/
def FollowsRedirect (d : Dispatcher S E M) (c : Context S E M) (r : Reader)
    (child : Offspring S E M) : Prop :=
  child.node.redirect ≠ none ∧ c.redirectDepth + 1 ≤ d.config.maxRedirectDepth ∧
    ∃ taken : Taken r, child.Matches c taken ∧ taken.after.canRead = true

/-- Of the children that the principal may use it is the first whose redirect is followed. -/
structure Settles (d : Dispatcher S E M) (node : Nat) (r : Reader) (c : Context S E M)
    (child : Offspring S E M) (p : Parse S E M) : Prop where
  offered : d.tree.Offers c.source child
  follows : d.FollowsRedirect c r child
  branch : d.Branch c r child p
  first : ∃ before after, d.tree.childIds node = before ++ child.id :: after ∧
    ∀ other, other.id ∈ before → d.tree.Offers c.source other → ¬d.FollowsRedirect c r other

/-- A line that ends behind a child leaves nothing of the input. -/
theorem branch_of_atEnd {taken : Taken r} (hm : child.Matches c taken)
    (atEnd : taken.after.canRead = false) :
    d.Branch c r child (.ended (child.visit c taken) taken.after) :=
  .inl (trial_of_atEnd hm atEnd)

/-- Where a redirect is followed, the parse is what comes of its target. -/
theorem trial_of_redirect {taken : Taken r} {target : Nat} (hm : child.Matches c taken)
    (more : taken.after.canRead = true) (redirect : child.node.redirect = some target)
    (limit : c.redirectDepth + 1 ≤ d.config.maxRedirectDepth)
    (inner : q = d.parseAt target taken.after.pastSeparator
      ((child.visit c taken).entrance target taken.after.pastSeparator)) :
    d.trial c r child = .settled { q with chain := .enter (child.visit c taken) q.chain } := by
  rw [trial_of_matches hm, if_pos more, redirect, inner]
  simp only [if_neg (Nat.not_lt.2 limit)]

/-- A child settles the parse exactly if its redirect is followed. -/
theorem followsRedirect_iff :
    d.FollowsRedirect c r child ↔ ∃ p, d.trial c r child = .settled p := by
  constructor
  · rintro ⟨hredirect, hlimit, taken, hm, more⟩
    obtain ⟨target, htarget⟩ := Option.ne_none_iff_exists'.1 hredirect
    exact ⟨_, trial_of_redirect hm more htarget hlimit rfl⟩
  · rintro ⟨p, htrial⟩
    obtain ⟨taken, target, hm, more, hredirect, hlimit, -⟩ := trial_eq_settled htrial
    exact ⟨by simp [hredirect], hlimit, taken, hm, more⟩

theorem FollowsRedirect.settled (h : d.FollowsRedirect c r child) (branch : d.Branch c r child p) :
    d.trial c r child = .settled p := by
  obtain ⟨q, hq⟩ := followsRedirect_iff.1 h
  rcases branch with hp | hp
  · rw [hq] at hp
    simp at hp
  · exact hp

/-- What a branch comes of is worth trying. -/
theorem Branch.fits (h : d.Branch c r child p) : child.label.fits r.peekWord = true := by
  rcases h with h | h
  · obtain ⟨taken, hm, -⟩ := trial_eq_possible h
    exact Label.fits_of_take hm.1
  · obtain ⟨taken, target, hm, -⟩ := trial_eq_settled h
    exact Label.fits_of_take hm.1

/-- A survey is settled by the first child whose redirect is followed. -/
theorem survey_eq_settled_iff :
    d.survey node r c = .settled p ↔ ∃ child, d.Settles node r c child p := by
  rw [survey, Survey.ofAttempts_eq_settled_iff, List.findSome?_eq_some_iff]
  constructor
  · rintro ⟨before, child, after, hsplit, hsettled, hbefore⟩
    rw [Tree.eligible_eq, List.filterMap_eq_append_iff] at hsplit
    obtain ⟨ids, more, hids, rfl, hsplit⟩ := hsplit
    obtain ⟨passed, id, later, rfl, hpassed, hid, -⟩ := List.filterMap_eq_cons_iff.1 hsplit
    obtain ⟨rfl, hnode, hlabel, -, huse⟩ := Tree.tried?_eq_some_iff.1 hid
    have htrial := Attempt.settled?_eq_some_iff.1 hsettled
    refine ⟨child, ⟨hnode, hlabel, huse⟩, followsRedirect_iff.2 ⟨p, htrial⟩, .inr htrial,
      ids ++ passed, later, by rw [hids, List.append_assoc], ?_⟩
    rintro other hother ⟨hnode', hlabel', huse'⟩ hfollows
    obtain ⟨q, hq⟩ := followsRedirect_iff.1 hfollows
    have htried : d.tree.tried? r c.source other.id = some other :=
      Tree.tried?_eq_some_iff.2 ⟨rfl, hnode', hlabel', Branch.fits (.inr hq), huse'⟩
    rcases List.mem_append.1 hother with hother | hother
    · have hnone := hbefore other (List.mem_filterMap.2 ⟨other.id, hother, htried⟩)
      rw [Attempt.settled?_eq_some_iff.2 hq] at hnone
      simp at hnone
    · rw [hpassed other.id hother] at htried
      simp at htried
  · rintro ⟨child, ⟨hnode, hlabel, huse⟩, hfollows, hbranch, before, after, hids, hfirst⟩
    have htried : d.tree.tried? r c.source child.id = some child :=
      Tree.tried?_eq_some_iff.2 ⟨rfl, hnode, hlabel, hbranch.fits, huse⟩
    refine ⟨before.filterMap (d.tree.tried? r c.source), child,
      after.filterMap (d.tree.tried? r c.source), ?_,
      Attempt.settled?_eq_some_iff.2 (hfollows.settled hbranch), ?_⟩
    · rw [Tree.eligible_eq, hids, List.filterMap_append, List.filterMap_cons_some htried]
    · intro other hother
      obtain ⟨id, hid, htried⟩ := List.mem_filterMap.1 hother
      obtain ⟨rfl, hnode, hlabel, -, huse⟩ := Tree.tried?_eq_some_iff.1 htried
      rw [Option.eq_none_iff_forall_ne_some]
      intro q hq
      exact hfirst other hid ⟨hnode, hlabel, huse⟩
        (followsRedirect_iff.2 ⟨q, Attempt.settled?_eq_some_iff.1 hq⟩)

/-- The first redirect that is followed decides what the parse of the node is. -/
theorem Settles.parseAt_eq (h : d.Settles node r c child p) : d.parseAt node r c = p := by
  rw [Dispatcher.parseAt_eq, survey_eq_settled_iff.2 ⟨child, h⟩]
  rfl

/-- If a child leaves nothing of the input and no errors, the parse of the node is complete
exactly if no redirect of a child is followed, or the first that is leads to a complete parse.
Then that is the parse of the node. -/
theorem isComplete_parseAt_iff (hchild : child.id ∈ d.tree.childIds node)
    (offered : d.tree.Offers c.source child) (branch : d.Branch c r child p)
    (complete : p.isComplete = true) (clean : p.errors = []) :
    ((d.parseAt node r c).isComplete = true ↔
      ∀ first q, d.Settles node r c first q → q.isComplete = true) ∧
    ∀ first q, d.Settles node r c first q → d.parseAt node r c = q := by
  have hsettled : ∀ first q, d.Settles node r c first q → d.parseAt node r c = q :=
    fun _ _ hfirst => hfirst.parseAt_eq
  refine ⟨⟨fun h first q hfirst => hsettled first q hfirst ▸ h, fun h => ?_⟩, hsettled⟩
  cases hsurvey : d.survey node r c with
  | settled q =>
    obtain ⟨first, hfirst⟩ := survey_eq_settled_iff.1 hsurvey
    rw [hsettled first q hfirst]
    exact h first q hfirst
  | choice errors parses =>
    obtain ⟨-, hparses, hnone⟩ := Survey.ofAttempts_eq_choice hsurvey
    have heligible : child ∈ d.tree.eligible node r c.source :=
      Tree.mem_eligible_iff.2 ⟨hchild, offered.1, offered.2.1, branch.fits, offered.2.2⟩
    have hp : p ∈ parses := by
      rw [hparses, List.mem_filterMap]
      refine ⟨child, heligible, Attempt.possible?_eq_some_iff.2 ?_⟩
      exact branch.resolve_right (hnone child heligible p)
    rw [parseAt_eq, hsurvey]
    cases parses with
    | nil => simp at hp
    | cons first rest => exact Parse.isComplete_best hp complete clean

/-- Behind `say`, `me` leads back to the root, and anything else is a message. -/
def sayMe : Sprout Principal Nat Unit :=
  ((Sprout.literal "say").child ((Sprout.literal "me").redirectTo Tree.root)).child
    ((Sprout.argument "message" StandardParser.greedy.toParser).withExecutor (some 2))

def sayer : Dispatcher Principal Nat Unit where
  tree := Tree.empty.after (.register sayMe)
  config := {}

def me : Offspring Principal Nat Unit := ⟨2, (sayer.tree.node? 2).get rfl, .literal "me"⟩

def message : Offspring Principal Nat Unit :=
  ⟨3, (sayer.tree.node? 3).get rfl, .argument "message" StandardParser.greedy.toParser none⟩

/-- The context behind `say`. -/
def said (line : String) : Context Principal Nat Unit :=
  firstVisit line (.named "guest") 1 ((sayer.tree.node? 1).get rfl) "say"

theorem parse_say {v line : String} (hv : v ≠ "") (hline : line = "say" ++ (" " ++ v)) :
    sayer.parse line (.named "guest") = sayer.parseAt 1 ⟨line, 4⟩ (said line) := by
  have literals : sayer.tree.HasLiterals :=
    (Tree.hasLiterals_empty.register (b := sayMe) (x := 1) rfl).literals
  have say : sayer.tree.RootLiteral "say" 1 _ := ⟨by decide, rfl, rfl⟩
  have separate : ∀ c ∈ "say".toList, c ≠ separator := by simp [separator]
  exact (parse_line literals say separate hv hline rfl).1 rfl

/-- In `say hello` no redirect is followed, and the message takes all that is left. -/
theorem isComplete_say_hello : message.id ∈ sayer.tree.childIds 1 ∧
    sayer.tree.Offers (said "say hello").source message ∧
    (∃ p, sayer.Branch (said "say hello") ⟨"say hello", 4⟩ message p ∧ p.isComplete = true ∧
      p.errors = []) ∧ (sayer.parse "say hello" (.named "guest")).isComplete = true := by
  have child : message.id ∈ sayer.tree.childIds 1 := by decide
  have offered : sayer.tree.Offers (said "say hello").source message := ⟨rfl, rfl, rfl⟩
  have takes : message.Matches (said "say hello") (r := ⟨"say hello", 4⟩)
      ⟨some (.string "hello"), ⟨"say hello", 9⟩, by decide⟩ := ⟨rfl, by decide⟩
  have branch := branch_of_atEnd (d := sayer) takes (by decide)
  refine ⟨child, offered, ⟨_, branch, rfl, rfl⟩, ?_⟩
  have parsed : sayer.parse "say hello" (.named "guest") = _ :=
    parse_say (v := "hello") (by decide) rfl
  rw [parsed]
  refine (isComplete_parseAt_iff child offered branch rfl rfl).1.2 fun first q settles => ?_
  obtain ⟨redirects, -, taken, ⟨takesFirst, -⟩, -⟩ := settles.follows
  obtain ⟨before, after, ids, -⟩ := settles.first
  have number : first.id ∈ [me.id, message.id] := by
    rw [show [me.id, message.id] = before ++ first.id :: after from ids]
    simp
  rcases List.mem_pair.1 number with isMe | isMessage
  · have offeredMe : sayer.tree.Offers (said "say hello").source me := ⟨rfl, rfl, rfl⟩
    obtain rfl := settles.offered.unique offeredMe isMe
    exact absurd (Label.take_literal takesFirst).1 (by decide)
  · obtain rfl := settles.offered.unique offered isMessage
    exact absurd rfl redirects

/-- In `say me hello` the message takes all that is left, too, but the redirect of `me` is
followed to the root, where nothing is called `hello`. -/
theorem not_isComplete_say_me_hello :
    sayer.parse "say me hello" (.named "guest") =
      sayer.parseAt 1 ⟨"say me hello", 4⟩ (said "say me hello") ∧
    (me.id ∈ sayer.tree.childIds 1 ∧ sayer.tree.Offers (said "say me hello").source me ∧
      me.node.redirect = some Tree.root) ∧
    (message.id ∈ sayer.tree.childIds 1 ∧
      sayer.tree.Offers (said "say me hello").source message ∧
      ∃ p, sayer.Branch (said "say me hello") ⟨"say me hello", 4⟩ message p ∧
        p.isComplete = true ∧ p.errors = []) ∧
    (sayer.parseAt 1 ⟨"say me hello", 4⟩ (said "say me hello")).isComplete = false := by
  have offered : sayer.tree.Offers (said "say me hello").source me := ⟨rfl, rfl, rfl⟩
  have takes : message.Matches (said "say me hello") (r := ⟨"say me hello", 4⟩)
      ⟨some (.string "me hello"), ⟨"say me hello", 12⟩, by decide⟩ := ⟨rfl, by decide⟩
  have takesMe : me.Matches (said "say me hello") (r := ⟨"say me hello", 4⟩)
      ⟨none, ⟨"say me hello", 6⟩, by decide⟩ := ⟨rfl, by decide⟩
  have nothing : sayer.tree.eligible Tree.root ⟨"say me hello", 7⟩ (.named "guest") = [] := rfl
  refine ⟨parse_say (v := "me hello") (by decide) rfl, ⟨by decide, offered, rfl⟩,
    ⟨by decide, ⟨rfl, rfl, rfl⟩, _, branch_of_atEnd takes (by decide), rfl, rfl⟩, ?_⟩
  have limit : (said "say me hello").redirectDepth + 1 ≤ sayer.config.maxRedirectDepth := by decide
  have redirect : me.node.redirect = some Tree.root := rfl
  have trial := trial_of_redirect (d := sayer) takesMe (by decide) redirect limit rfl
  have settles : sayer.Settles 1 ⟨"say me hello", 4⟩ (said "say me hello") me _ :=
    ⟨offered, ⟨by decide, limit, _, takesMe, by decide⟩, .inr trial, [], [3], rfl, by simp⟩
  rw [settles.parseAt_eq, parseAt_of_eligible_nil nothing]
  rfl

end Dispatcher
end Dispatch
