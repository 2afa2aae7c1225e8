import Mathlib.Data.List.Chain
import Mathlib.Logic.Function.Basic

/-!
# Doubly linked chains in memory

A chain is a list of nodes, outermost node first, threaded through two pointer
fields: `up` leads from a node to the one it was put on, `down` is its inverse,
and both end in `null`.  `walk` is the loop that follows one field until it is
null; it takes fuel because an arbitrary memory may hold a cycle.  On a chain
it ends, and pushing or popping the outermost node keeps the chain.
-/

namespace Chain

variable {α : Type*}

/-- Follow `next` until the node whose field is `null`; `none` when the fuel
does not reach one. -/
def walk [DecidableEq α] (next : α → α) (null : α) : Nat → α → Option α
  | 0, _ => none
  | fuel + 1, node =>
      if next node = null then some node else walk next null fuel (next node)

/-- The nodes of `nodes`, outermost first, are doubly linked by `up` and
`down`. -/
structure Linked (up down : α → α) (null : α) (nodes : List α) : Prop where
  links : nodes.IsChain fun outer inner => up outer = inner ∧ down inner = outer
  outermost : ∀ node ∈ nodes.head?, down node = null
  innermost : ∀ node ∈ nodes.getLast?, up node = null
  nonnull : null ∉ nodes

namespace Linked

variable {up down up' down' : α → α} {null : α} {nodes : List α}

theorem singleton {node : α} (nonnull : node ≠ null)
    (upNull : up node = null) (downNull : down node = null) :
    Linked up down null [node] where
  links := .singleton _
  outermost := by simpa using downNull
  innermost := by simpa using upNull
  nonnull := by simpa using nonnull.symm

/-- Only the fields of the chain's own nodes matter. -/
theorem congr (linked : Linked up down null nodes)
    (sameUp : ∀ node ∈ nodes, up' node = up node)
    (sameDown : ∀ node ∈ nodes, down' node = down node) :
    Linked up' down' null nodes where
  links := by
    refine linked.links.imp_of_mem_imp ?_
    rintro outer inner outerMem innerMem ⟨upEq, downEq⟩
    exact ⟨by rw [sameUp _ outerMem, upEq], by rw [sameDown _ innerMem, downEq]⟩
  outermost := fun node member => by
    rw [sameDown _ (List.mem_of_mem_head? member)]
    exact linked.outermost _ member
  innermost := fun node member => by
    rw [sameUp _ (List.mem_of_mem_getLast? member)]
    exact linked.innermost _ member
  nonnull := linked.nonnull

theorem reverse (linked : Linked up down null nodes) :
    Linked down up null nodes.reverse where
  links := by
    rw [List.isChain_reverse]
    exact linked.links.imp fun _ _ both => both.symm
  outermost := by simpa using linked.innermost
  innermost := by simpa using linked.outermost
  nonnull := by simpa using linked.nonnull

theorem push {node top : α} {rest : List α}
    (linked : Linked up down null (top :: rest))
    (nonnull : node ≠ null)
    (upNode : up' node = top) (downTop : down' top = node)
    (downNode : down' node = null)
    (sameUp : ∀ other ∈ top :: rest, up' other = up other)
    (sameDown : ∀ other ∈ rest, down' other = down other) :
    Linked up' down' null (node :: top :: rest) where
  links := by
    refine .cons_cons ⟨upNode, downTop⟩ ?_
    refine linked.links.imp_of_mem_tail_imp ?_
    rintro outer inner outerMem innerMem ⟨upEq, downEq⟩
    exact ⟨by rw [sameUp _ outerMem, upEq], by rw [sameDown _ innerMem, downEq]⟩
  outermost := by simpa using downNode
  innermost := fun last member => by
    have inRest : last ∈ (top :: rest).getLast? := by simpa using member
    rw [sameUp _ (List.mem_of_mem_getLast? inRest)]
    exact linked.innermost _ inRest
  nonnull := by
    rw [List.mem_cons, not_or]
    exact ⟨nonnull.symm, linked.nonnull⟩

theorem pop {node top : α} {rest : List α}
    (linked : Linked up down null (node :: top :: rest))
    (downTop : down' top = null)
    (sameUp : ∀ other ∈ top :: rest, up' other = up other)
    (sameDown : ∀ other ∈ rest, down' other = down other) :
    Linked up' down' null (top :: rest) where
  links := by
    have inner := (List.isChain_cons_cons.mp linked.links).2
    refine inner.imp_of_mem_tail_imp ?_
    rintro outer inner outerMem innerMem ⟨upEq, downEq⟩
    exact ⟨by rw [sameUp _ outerMem, upEq], by rw [sameDown _ innerMem, downEq]⟩
  outermost := by simpa using downTop
  innermost := fun last member => by
    rw [sameUp _ (List.mem_of_mem_getLast? member)]
    exact linked.innermost _ (by simpa using member)
  nonnull := fun member =>
    linked.nonnull (List.mem_cons_of_mem _ member)

theorem up_top {node top : α} {rest : List α}
    (linked : Linked up down null (node :: top :: rest)) : up node = top :=
  (List.isChain_cons_cons.mp linked.links).1.1

section Walk

variable [DecidableEq α]

private theorem walk_suffix {node : α} {rest : List α} {fuel : Nat}
    (links : (node :: rest).IsChain
      fun outer inner => up outer = inner ∧ down inner = outer)
    (innermost : ∀ last ∈ (node :: rest).getLast?, up last = null)
    (nonnull : null ∉ rest) (enough : rest.length < fuel) :
    walk up null fuel node = (node :: rest).getLast? := by
  induction rest generalizing node fuel with
  | nil =>
      obtain ⟨fuel, rfl⟩ : ∃ less, fuel = less + 1 := ⟨fuel - 1, by omega⟩
      simp [walk, innermost node (by simp)]
  | cons inner rest induction =>
      obtain ⟨fuel, rfl⟩ : ∃ less, fuel = less + 1 := ⟨fuel - 1, by simp at enough; omega⟩
      obtain ⟨⟨upNode, _⟩, innerLinks⟩ := List.isChain_cons_cons.mp links
      have innerNonnull : inner ≠ null := by
        intro equality
        exact nonnull (by simp [equality])
      have continued := @induction inner fuel innerLinks
        (fun last member => innermost last (by simpa using member))
        (fun member => nonnull (List.mem_cons_of_mem _ member))
        (by simpa using enough)
      simp only [walk, upNode, if_neg innerNonnull, continued,
        List.getLast?_cons_cons]

/-- Following `up` from any node of a chain ends at the innermost node. -/
theorem walk_up (linked : Linked up down null nodes) {node : α}
    (member : node ∈ nodes) {fuel : Nat} (enough : nodes.length ≤ fuel) :
    walk up null fuel node = nodes.getLast? := by
  obtain ⟨before, after, rfl⟩ := List.append_of_mem member
  have links := (List.isChain_append.mp linked.links).2.1
  have sameLast : (before ++ node :: after).getLast? =
      (node :: after).getLast? :=
    List.getLast?_append_of_ne_nil before (List.cons_ne_nil _ _)
  rw [sameLast]
  refine walk_suffix links ?_ ?_ ?_
  · intro last member
    exact linked.innermost last (by rwa [sameLast])
  · intro member
    exact linked.nonnull (by simp [member])
  · simp at enough
    omega

/-- Following `down` from any node of a chain ends at the outermost node. -/
theorem walk_down (linked : Linked up down null nodes) {node : α}
    (member : node ∈ nodes) {fuel : Nat} (enough : nodes.length ≤ fuel) :
    walk down null fuel node = nodes.head? := by
  have inReverse : node ∈ nodes.reverse := by simpa using member
  have walked := linked.reverse.walk_up inReverse (by simpa using enough)
  simpa using walked

end Walk

end Linked

end Chain
