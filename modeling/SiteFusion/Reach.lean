namespace SiteFusion

variable {α : Type} [DecidableEq α]

/-- Follow the edges from the nodes on a stack to all nodes that were not seen. Nodes are listed in
the order of their discovery. One unit of fuel is spent for each node that is taken from the
stack, so the number of edges and of nodes to start from is enough. -/
def reach (next : α → List α) : Nat → List α → List α → List α
  | 0, _, seen => seen
  | _ + 1, [], seen => seen
  | n + 1, a :: stack, seen =>
    if seen.contains a then reach next n stack seen
    else reach next n (next a ++ stack) (seen ++ [a])

/-- Go on with one node after the other, until one of them is the target or leads to it. -/
def searchEach (target : α) (search : α → List α → Bool × List α) :
    List α → List α → Bool × List α
  | [], visited => (false, visited)
  | a :: l, visited =>
    if a = target then (true, visited)
    else
      let r := search a visited
      if r.1 then r else searchEach target search l r.2

/-- Whether a way of one edge at least leads from a node to the target, and what was visited to find
out. A node that was visited before is not visited again. The fuel bounds the length of the way. -/
def search (next : α → List α) (target : α) : Nat → α → List α → Bool × List α
  | 0, _, visited => (false, visited)
  | n + 1, a, visited =>
    if visited.contains a then (false, visited)
    else searchEach target (search next target n) (next a) (a :: visited)

end SiteFusion
