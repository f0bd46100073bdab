import Dispatch.Proofs.Execution.Verdict
import Dispatch.Proofs.Tree.UsageLines
/-!
# Usage lines are what runs

Two recursions meet here. One goes down a tree and writes the lines that a principal can use,
the other reads a line and goes down the tree with it. In a tree of tokens both follow the
same ways: a route for a line is a way down whose words spell it (`Route.descends`), and every
way down is a route for the line that it spells (`exists_route`). So what a principal is shown
is what the principal can run, and each line runs the node for which it is shown
(`showsWhatRuns_afterAll`).
-/
namespace Dispatch
variable {S E M : Type}

namespace Dispatcher
variable {d : Dispatcher S E M} {source : S} {line : String} {node x : Nat} {r : Reader}
  {c below : Context S E M} {places : List Nat} {words : List String} {cs : List Char}

/-- Running the line is running this executor in this context, whatever the host does. -/
structure Runs (d : Dispatcher S E M) (line : String) (source : S) (executor : E)
    (context : Context S E M) : Prop where
  execute_eq : ∀ {m : Type → Type} [Monad m] [LawfulMonad m] (host : Host m S E M),
    d.execute host line source = host.run executor context

theorem Runs.not_refuses {executor : E} {context : Context S E M} {error : CommandError}
    (h : d.Runs line source executor context) : ¬d.Refuses line source error := by
  intro hrefuses
  have hrun := (h.execute_eq willing).symm.trans (hrefuses.execute_eq willing)
  cases hrun

/-- What is left behind a literal that was taken. -/
theorem rest?_of_take {text : String} {taken : Taken r} (hr : r.rest? = some cs)
    (h : (Label.literal text).take c r = .ok taken) :
    ∃ tail, cs = text.toList ++ tail ∧ taken.after.rest? = some tail := by
  obtain ⟨rfl, -, hafter⟩ := Label.take_literal h
  obtain ⟨tail, htail⟩ := Reader.exists_rest?_peekWord (Reader.isOnBoundary_iff.2 ⟨cs, hr⟩)
  refine ⟨tail, Option.some.inj (hr.symm.trans htail), ?_⟩
  rw [hafter]
  exact Reader.rest?_advance htail

/-- A child on offer is a literal, and its text is the next word of a way down. -/
theorem exists_text (h : d.tree.OfTokens) {place : Nat} {child : Offspring S E M}
    (here : (d.tree.childIds node)[place]? = some child.id)
    (offered : d.tree.Offers source child) :
    ∃ text, child.label = .literal text ∧ ∀ words x,
      d.tree.Descends source child.id words x →
        d.tree.Descends source node (text :: words) x := by
  have hmem := List.mem_of_getElem? here
  obtain ⟨hnode, hlabel, huse⟩ := offered
  obtain ⟨text, htext, -⟩ :=
    h.token child.id child.node hnode (Nat.ne_of_gt (Tree.root_lt_of_mem_childIds hmem))
  exact ⟨text, Option.some.inj (hlabel.symm.trans htext),
    fun words x hway => .step hmem hnode htext huse hway⟩

/-- A route leads down with the words of what is left of the line, and what it comes to is to
run the node at its end. -/
theorem Route.descends (h : d.tree.OfTokens) (hroute : d.Route node r c places below)
    (hr : r.rest? = some cs) :
    ∃ words x found range, d.tree.Descends c.source node words x ∧
      separator :: cs = Tree.wordsBehind words ∧ d.tree.node? x = some found ∧
      below.executor = found.executor ∧ below.nodes.getLast? = some ⟨x, range⟩ := by
  induction hroute generalizing cs with
  | @last _ _ r c child taken here offered takes atEnd =>
    obtain ⟨text, hlabel, hway⟩ := exists_text h here offered
    rw [hlabel] at takes
    obtain ⟨tail, rfl, htail⟩ := rest?_of_take hr takes
    have hnil : tail = [] := by
      cases tail with
      | nil => rfl
      | cons first rest => exact absurd (Reader.canRead_of_rest?_cons htail) (by simp [atEnd])
    refine ⟨[text], child.id, child.node, taken.range, hway [] _ .here, ?_, offered.1, rfl, ?_⟩
    · simp [Tree.wordsBehind, hnil]
    · rw [child.visit_nodes, List.getLast?_concat]
  | @further _ _ _ r c below child taken here offered takes space _ _ ih =>
    obtain ⟨text, hlabel, hway⟩ := exists_text h here offered
    rw [hlabel] at takes
    obtain ⟨tail, rfl, htail⟩ := rest?_of_take hr takes
    obtain ⟨after, hafter⟩ := Reader.peek_eq_some_iff.1 space
    obtain rfl : tail = separator :: after := Option.some.inj (htail.symm.trans hafter)
    have hpast := Reader.rest?_pastSeparator hafter
    obtain ⟨words, x, found, range, hbelow, hwords, hfound, hexecutor, hlast⟩ := ih hpast
    rw [child.visit_source] at hbelow
    refine ⟨text :: words, x, found, range, hway words x hbelow, ?_, hfound, hexecutor, hlast⟩
    rw [Tree.wordsBehind, List.flatMap_cons, ← Tree.wordsBehind, ← hwords]
    rfl

/-- Every way down is a route for the line that goes on with its words. -/
theorem exists_route (h : d.tree.OfTokens) (hway : d.tree.Descends source node words x)
    (hne : words ≠ []) (hr : r.rest? = some cs) (hcs : separator :: cs = Tree.wordsBehind words)
    (hc : c.source = source) : ∃ places below, d.Route node r c places below := by
  induction hway generalizing r cs c with
  | here => exact absurd rfl hne
  | @step node id x found text rest hchild hlookup hlabel huse hbelow ih =>
    have htokens := (Tree.Descends.step hchild hlookup hlabel huse hbelow).tokens h
    obtain rfl : cs = text.toList ++ Tree.wordsBehind rest := by
      simpa [Tree.wordsBehind] using hcs
    obtain ⟨taken, takes, hafter⟩ :=
      Label.take_word hr (htokens text List.mem_cons_self).ne_separator
      (Tree.endsWord_wordsBehind rest) c
    have htail : taken.after.rest? = some (Tree.wordsBehind rest) :=
      hafter ▸ Reader.rest?_advance hr
    obtain ⟨place, here⟩ := List.mem_iff_getElem?.1 hchild
    have offered : d.tree.Offers c.source (⟨id, found, .literal text⟩ : Offspring S E M) :=
      ⟨hlookup, hlabel, hc ▸ huse⟩
    cases rest with
    | nil => exact ⟨[place], _, .last here offered takes (Reader.canRead_of_rest?_nil htail)⟩
    | cons word others =>
      have hword := Text.size_pos (htokens word (by simp)).ne_empty
      have hone : separator.utf8Size = 1 := by decide
      have hpast := Reader.rest?_pastSeparator htail
      obtain ⟨places, below, hroute⟩ := ih (List.cons_ne_nil _ _) hpast rfl
        ((Offspring.visit_source _ c taken).trans hc)
      refine ⟨place :: places, below,
        .further here offered takes (Reader.peek_eq_some_iff.2 ⟨_, htail⟩) ?_ hroute⟩
      have hsize := Reader.byteSize_of_rest? htail
      simp only [Tree.wordsBehind, List.flatMap_cons, List.cons_append, Text.byteSize_cons, hone,
        Text.byteSize_append] at hsize
      rw [Text.size] at hword
      rw [Reader.canReadBytes_iff]
      omega

theorem spell_ne_empty (hwords : ∀ word ∈ words, IsToken word) (hne : words ≠ []) :
    Tree.spell "" words ≠ "" := by
  intro hspell
  have htext := Tree.toList_spell_empty hwords hne
  obtain ⟨first, rest, rfl⟩ := List.exists_cons_of_ne_nil hne
  have hfirst := (hwords first List.mem_cons_self).ne_empty
  simp [hspell, Tree.wordsBehind, hfirst] at htext

/-- A line that a way down spells is parsed completely. -/
theorem isComplete_of_descends (h : d.tree.OfTokens)
    (hway : d.tree.Descends source Tree.root words x) (hne : words ≠ []) :
    (d.parse (Tree.spell "" words) source).isComplete = true := by
  have htokens := hway.tokens h
  obtain ⟨places, below, hroute⟩ := exists_route (c := .start source _ Tree.root 0) h hway hne
    (Reader.rest?_ofString _) (Tree.toList_spell_empty htokens hne) rfl
  exact (d.parseAt_finds h.plain Tree.root _ _
    (Reader.canRead_ofString (spell_ne_empty htokens hne))).complete places below hroute

/-- A complete parse of a line that is not empty is spelled by a way down, and has to run what
the node at its end runs. -/
structure Reads (d : Dispatcher S E M) (source : S) (line : String) (words : List String) (x : Nat)
    (found : Node S E M) (below : Context S E M) : Prop where
  way : d.tree.Descends source Tree.root words x
  spelled : line = Tree.spell "" words
  lookup : d.tree.node? x = some found
  chain : (d.parse line source).chain = .single below
  executor : below.executor = found.executor
  last : ∃ range, below.nodes.getLast? = some ⟨x, range⟩

theorem exists_reads (h : d.tree.OfTokens) (hline : line ≠ "")
    (complete : (d.parse line source).isComplete = true) :
    ∃ words x found below, d.Reads source line words x found below := by
  obtain ⟨-, places, below, hroute, hchain, -⟩ := (d.parseAt_finds h.plain Tree.root _ _
    (Reader.canRead_ofString hline)).first complete
  obtain ⟨words, x, found, range, hway, hwords, hfound, hexecutor, hlast⟩ :=
    hroute.descends h (Reader.rest?_ofString line)
  refine ⟨words, x, found, below, hway, ?_, hfound, hchain, hexecutor, range, hlast⟩
  have hne : words ≠ [] := by
    rintro rfl
    simp [Tree.wordsBehind] at hwords
  rw [← Tree.toList_spell_empty (hway.tokens h) hne] at hwords
  exact String.toList_inj.1 (List.cons.inj hwords).2

/-- A complete parse of a line runs its executor. -/
theorem runs_of_chain {executor : E} (complete : (d.parse line source).isComplete = true)
    (hchain : (d.parse line source).chain = .single below)
    (hexecutor : below.executor = some executor) :
    d.Runs line source executor (below.onBehalfOf source) := by
  have hp : d.parseFrom? (.ofString line) source = some (d.parse line source) := by
    rw [parseFrom?, if_pos (Reader.isOnBoundary_ofString line)]
    rfl
  have hlast : (d.parse line source).chain.last = below := by rw [hchain]; rfl
  refine ⟨fun host => ?_⟩
  rw [execute, Parse.execute_eq_carryOut host hp (Parse.isDirect_single hchain),
    Parse.verdict_of_executor_some complete (hlast ▸ hexecutor), hlast]
  rfl

/-- A complete parse without an executor is refused as incomplete. -/
theorem refuses_of_chain (complete : (d.parse line source).isComplete = true)
    (hchain : (d.parse line source).chain = .single below) (hexecutor : below.executor = none) :
    d.Refuses line source (.incomplete (d.parse line source).reader.input) := by
  have hlast : (d.parse line source).chain.last = below := by rw [hchain]; rfl
  rw [refuses_iff (Parse.isDirect_single hchain),
    Parse.verdict_of_executor_none complete (hlast ▸ hexecutor)]

section
variable (h : d.tree.OfTokens)
include h

theorem isUsable_root (source : S) : d.tree.isUsable source Tree.root = true := by
  obtain ⟨node, hnode⟩ := Tree.exists_node? d.tree.hasRoot
  exact Tree.isUsable_iff.2 ⟨node, hnode, by simp [Node.canUse, (h.bare node hnode).2]⟩

/-- No token is empty, so nothing of an empty line is visited. -/
theorem parse_empty (source : S) :
    d.parse "" source = ⟨.single (.start source "" Tree.root 0), .ofString "", []⟩ := by
  refine parseAt_of_eligible_nil ?_
  rw [Tree.eligible_eq, List.filterMap_eq_nil_iff]
  intro c hc
  obtain ⟨node, hnode⟩ := Tree.exists_node? (Tree.lt_of_mem_childIds hc).2
  obtain ⟨text, hlabel, htoken⟩ :=
    h.token c node hnode (Nat.ne_of_gt (Tree.root_lt_of_mem_childIds hc))
  have hword : (Reader.ofString "").peekWord = "" := rfl
  simp [Tree.tried?, hnode, hlabel, Label.fits, hword, htoken.ne_empty]

/-- A line that is shown runs the node for which it is shown. -/
theorem runs_of_mem_usageNodes (hmem : (line, x) ∈ d.tree.usageNodes source true "" Tree.root) :
    ∃ node executor context range, d.tree.node? x = some node ∧ node.executor = some executor ∧
      context.nodes.getLast? = some ⟨x, range⟩ ∧ d.Runs line source executor context := by
  obtain ⟨words, node, hway, hnode, hexecutor, rfl⟩ :=
    (h.mem_usageNodes_iff (isUsable_root h source)).1 hmem
  obtain ⟨executor, hexecutor⟩ := Option.isSome_iff_exists.1 hexecutor
  have hne : words ≠ [] := by
    rintro rfl
    cases hway
    simp [(h.bare node hnode).1] at hexecutor
  have complete := isComplete_of_descends h hway hne
  obtain ⟨words', x', found, below, hreads⟩ :=
    exists_reads h (spell_ne_empty (hway.tokens h) hne) complete
  obtain rfl := Tree.spell_injective (hway.tokens h) (hreads.way.tokens h) hreads.spelled
  obtain rfl := hway.unique h hreads.way
  obtain rfl : node = found := Option.some.inj (hnode.symm.trans hreads.lookup)
  obtain ⟨range, hlast⟩ := hreads.last
  exact ⟨node, executor, below.onBehalfOf source, range, hnode, hexecutor, hlast,
    runs_of_chain complete hreads.chain (hreads.executor.trans hexecutor)⟩

/-- A line that is not shown runs nothing. -/
theorem refuses_of_not_mem_usageNodes
    (hmem : ∀ x, (line, x) ∉ d.tree.usageNodes source true "" Tree.root) :
    ∃ error, d.Refuses line source error := by
  cases complete : (d.parse line source).isComplete with
  | false => exact ⟨_, refuses_of_not_isComplete complete⟩
  | true =>
    by_cases hline : line = ""
    · subst hline
      exact ⟨_, refuses_of_chain complete (congrArg Parse.chain (parse_empty h source)) rfl⟩
    · obtain ⟨words, x, found, below, hreads⟩ := exists_reads h hline complete
      refine ⟨_, refuses_of_chain complete hreads.chain (hreads.executor.trans ?_)⟩
      by_contra hne
      refine hmem x (hreads.spelled ▸ h.mem_usageNodes_of_descends (isUsable_root h source)
        hreads.way hreads.lookup ?_ "")
      exact Option.isSome_iff_ne_none.2 hne

end

/-- What a principal is shown is what the principal can run, and each line is shown once. -/
structure ShowsWhatRuns (d : Dispatcher S E M) (source : S) : Prop where
  distinct : (d.tree.allUsage Tree.root source true).Nodup
  runs_iff : ∀ line, (∃ executor context, d.Runs line source executor context) ↔
    line ∈ d.tree.allUsage Tree.root source true
  /-- Nothing else is run, not even in part. -/
  refuses : ∀ line, line ∉ d.tree.allUsage Tree.root source true →
    ∃ error, d.Refuses line source error
  /-- What is run is the node for which the line is shown. -/
  own : ∀ line x, (line, x) ∈ d.tree.usageNodes source true "" Tree.root →
    ∃ node executor context range, d.tree.node? x = some node ∧ node.executor = some executor ∧
      context.nodes.getLast? = some ⟨x, range⟩ ∧ d.Runs line source executor context

theorem showsWhatRuns (h : d.tree.OfTokens) (source : S) : d.ShowsWhatRuns source := by
  have hshown : ∀ line, line ∈ d.tree.allUsage Tree.root source true ↔
      ∃ x, (line, x) ∈ d.tree.usageNodes source true "" Tree.root := by
    intro line
    rw [Tree.allUsage, ← Tree.map_fst_usageNodes]
    simp
  have hrefuses : ∀ line, line ∉ d.tree.allUsage Tree.root source true →
      ∃ error, d.Refuses line source error := fun line hline =>
    refuses_of_not_mem_usageNodes h fun x hx => hline ((hshown line).2 ⟨x, hx⟩)
  refine ⟨h.nodup_usageFrom source "" Tree.root, fun line => ⟨?_, ?_⟩, hrefuses,
    fun line x => runs_of_mem_usageNodes h⟩
  · rintro ⟨executor, context, hruns⟩
    by_contra hline
    obtain ⟨error, hrefused⟩ := hrefuses line hline
    exact hruns.not_refuses hrefused
  · intro hline
    obtain ⟨x, hx⟩ := (hshown line).1 hline
    obtain ⟨-, executor, context, -, -, -, -, hruns⟩ := runs_of_mem_usageNodes h hx
    exact ⟨executor, context, hruns⟩

/-- Whatever literals that are tokens are added, and under whichever nodes, the usage lines of
a principal are the lines that run something, each once, and each runs the node for which it
is shown. -/
theorem showsWhatRuns_afterAll {changes : List (Change S E M)}
    (adds : ∀ change ∈ changes, change.AddsTokens) (config : Config) (source : S) :
    (⟨Tree.empty.afterAll changes, config⟩ : Dispatcher S E M).ShowsWhatRuns source :=
  showsWhatRuns (Tree.ofTokens_empty.afterAll adds) source

/-- `time` with `set`, of which only the second runs something. -/
def timeSet : List (Change Unit Nat Unit) :=
  [.register (.literal "time"), .addChild 1 ((Sprout.literal "set").executes 7)]

theorem showsWhatRuns_timeSet : (∀ change ∈ timeSet, change.AddsTokens) ∧
    (Tree.empty.afterAll timeSet).usageNodes () true "" Tree.root = [("time set", 2)] ∧
    (⟨Tree.empty.afterAll timeSet, {}⟩ : Dispatcher Unit Nat Unit).ShowsWhatRuns () := by
  have token : ∀ text, text = "time" ∨ text = "set" → IsToken text := by
    rintro text (rfl | rfl)
    · exact ⟨by decide, by simp [separator]⟩
    · exact ⟨by decide, by simp [separator]⟩
  have adds : ∀ change ∈ timeSet, change.AddsTokens := by
    simp only [timeSet, List.forall_mem_cons]
    refine ⟨⟨Tree.root, _, rfl, ?_⟩, ⟨1, _, rfl, ?_⟩, by simp⟩
    · exact .mk rfl (token "time" (.inl rfl)) rfl (by rintro _ ⟨⟩)
    · exact .mk rfl (token "set" (.inr rfl)) rfl (by rintro _ ⟨⟩)
  exact ⟨adds, by decide +kernel, showsWhatRuns_afterAll adds {} ()⟩

end Dispatcher
end Dispatch
