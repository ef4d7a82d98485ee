import LocalityOrder.Table

/-!
# Chains

A chain is a list of ids that can be changed at any of its elements in constant time: each element
knows the one before it and the one after it.  An id that has been removed from the chain has no
link at all.  A chain does not know its first element; whoever owns it does.

The one change that all others are made of is `join`, which makes two elements neighbors.
-/

namespace LocalityOrder

/-- The neighbors of an element of a chain. -/
structure Link where
  before : Option Vertex
  after : Option Vertex
deriving DecidableEq

/-- The links of a doubly linked list of ids. -/
structure Chain where
  links : Table (Option Link)
deriving DecidableEq

namespace Chain

-- An id that has to be there.
def expect (v? : Option Vertex) : Except Fault Vertex :=
  match v? with
  | some v => .ok v
  | none => .error .indexOutOfBounds

-- The link of `v`, if it is in the chain.
def link? (c : Chain) (v : Vertex) : Except Fault (Option Link) := c.links.get v

-- The link of an element.
def link (c : Chain) (v : Vertex) : Except Fault Link := do
  match ← c.link? v with
  | some link => return link
  | none => throw .indexOutOfBounds

-- The ids in the chain, ascending.
def live (c : Chain) : List Vertex :=
  (Vertex.all c.links.size).filter fun v => (c.links[v]?.join).isSome

def setAfter (c : Chain) (v : Vertex) (after : Option Vertex) : Except Fault Chain := do
  let link ← c.link v
  return ⟨← c.links.put v (some ⟨link.before, after⟩)⟩

def setBefore (c : Chain) (v : Vertex) (before : Option Vertex) : Except Fault Chain := do
  let link ← c.link v
  return ⟨← c.links.put v (some ⟨before, link.after⟩)⟩

/-- Makes two elements neighbors.  Without the first, the second becomes the head of the chain;
without the second, the first becomes its end. -/
def join (c : Chain) (before after : Option Vertex) : Except Fault Chain := do
  let c ← match before with
    | some b => c.setAfter b after
    | none => pure c
  match after with
  | some a => c.setBefore a before
  | none => return c

-- Closes the chain over an element, whose own link is left as it was.
def unlink (c : Chain) (v : Vertex) : Except Fault Chain := do
  let link ← c.link v
  c.join link.before link.after

-- Puts an unlinked element between two neighbors.
def insertBetween (c : Chain) (v : Vertex) (before after : Option Vertex) : Except Fault Chain := do
  let c ← c.join before (some v)
  c.join (some v) after

-- Takes an element out of the chain for good.
def remove (c : Chain) (v : Vertex) : Except Fault Chain := do
  let c ← c.unlink v
  return ⟨← c.links.put v none⟩

-- Links the ids of a list in its order, the first one after `before`.
def thread (c : Chain) (before : Option Vertex) : List Vertex → Except Fault Chain
  | [] => .ok c
  | v :: rest => do
      let links ← c.links.put v (some ⟨before, rest.head?⟩)
      thread ⟨links⟩ (some v) rest

-- The elements from `v?` on to the end of the chain, which has to come within `fuel` elements.
def walk (c : Chain) : (fuel : Nat) → (v? : Option Vertex) → Except Fault (List Vertex)
  | _, none => .ok []
  | 0, some _ => .error .unsettled
  | fuel + 1, some v => do
      let link ← c.link v
      return v :: (← c.walk fuel link.after)

end Chain

end LocalityOrder
