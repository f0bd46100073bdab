import Dispatch.Tree.Basic
import Dispatch.Reader
/-!
# Usage lines

Two ways to show which command lines a tree knows: every line in full, one for each node that
runs something; or one compact line for each child of a node, with optional parts in square
brackets and alternatives in round ones. A redirect ends a line and is shown by its target.
-/
namespace Dispatch.Tree
variable {S E M : Type}

/-- How a node is shown in usage lines. -/
def usageOf (t : Tree S E M) (id : Nat) : String := (t.node? id).elim "" Node.usage

/-- Two parts of a usage line, next to each other. -/
def joinUsage (line part : String) : String := line ++ separator.toString ++ part

/-- How a redirect is shown. -/
def redirectUsage (t : Tree S E M) (target : Nat) : String :=
  if target = root then "..." else "-> " ++ t.usageOf target

/-- Every line from a node on, where `line` is what comes before. -/
def usageFrom (t : Tree S E M) (source : S) (restricted : Bool) (line : String) (id : Nat) :
    List String :=
  match t.node? id with
  | none => []
  | some node =>
    if restricted && !node.canUse source then []
    else
      (if node.executor.isSome then [line] else []) ++
        match node.redirect with
        | some target =>
          [joinUsage (if line.isEmpty then node.usage else line) (t.redirectUsage target)]
        | none => (t.childrenOf id).flatMap fun ⟨c, _⟩ =>
          let part := t.usageOf c
          t.usageFrom source restricted (if line.isEmpty then part else joinUsage line part) c
termination_by t.size - id
decreasing_by omega

/-- Every line below a node in full. If restricted, lines are left out that the principal
cannot use. -/
def allUsage (t : Tree S E M) (id : Nat) (source : S) (restricted : Bool) : List String :=
  t.usageFrom source restricted "" id

/-- The text in square brackets if it is optional. -/
def bracketed (isOptional : Bool) (text : String) : String :=
  if isOptional then "[" ++ text ++ "]" else text

/-- What a compact line says of several children: the alternatives in brackets, or, if all of
them look the same, what they look like. -/
def alternatives (isOptional : Bool) (usages : List String) : Option String :=
  match usages.eraseDups with
  | [] => none
  | [usage] => some (bracketed isOptional (bracketed isOptional usage))
  | _ =>
    let joined := "|".intercalate usages
    some (if isOptional then bracketed true joined else "(" ++ joined ++ ")")

/-- The compact line of a node, if the principal can use it. -/
def compactUsage (t : Tree S E M) (source : S) (isOptional : Bool) (id : Nat) : Option String :=
  match t.node? id with
  | none => none
  | some node =>
    if !node.canUse source then none
    else
      let this := bracketed isOptional node.usage
      match node.redirect with
      | some target => some (joinUsage this (t.redirectUsage target))
      | none =>
        let usable := (t.childrenOf id).filter fun c =>
          (t.node? c.val).any fun child => child.canUse source
        let tail :=
          match usable with
          | [] => none
          | [⟨only, _⟩] =>
            if node.executor.isSome then some (bracketed true (t.usageOf only))
            else t.compactUsage source false only
          | several => alternatives node.executor.isSome (several.map fun c => t.usageOf c.val)
        some (match tail with
          | some text => joinUsage this text
          | none => this)
termination_by t.size - id
decreasing_by omega

/-- The compact line of each child of a node that the principal can use, by its number. -/
def smartUsage (t : Tree S E M) (id : Nat) (source : S) : List (Nat × String) :=
  match t.node? id with
  | none => []
  | some node => node.children.filterMap fun c =>
    (t.compactUsage source node.executor.isSome c).map (c, ·)

end Dispatch.Tree
