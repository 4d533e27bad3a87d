import SiteFusion.Code.Function

namespace SiteFusion

structure Dominators where
  idoms : Table BlockId BlockId
  order : List BlockId
  entry : BlockId

namespace Graph

/-- Walk in depth from the blocks on a stack, each with the successors still to be tried, and put
every block that is done with in front. -/
def postorder (g : Graph) :
    Nat → List (BlockId × List BlockId) → List BlockId → List BlockId → List BlockId
  | 0, _, _, done => done
  | _ + 1, [], _, done => done
  | n + 1, (b, []) :: stack, seen, done => postorder g n stack seen (b :: done)
  | n + 1, (b, s :: rest) :: stack, seen, done =>
    if g.blocks.contains s && !seen.contains s then
      postorder g n ((s, g.successorsOf s) :: (b, rest) :: stack) (s :: seen) done
    else postorder g n ((b, rest) :: stack) seen done

def reversePostorder (g : Graph) : List BlockId :=
  if g.blocks.contains g.entry then
    g.postorder (g.edgeCount + g.blocks.size + 1) [(g.entry, g.successorsOf g.entry)] [g.entry] []
  else []

end Graph

namespace Dominators

/-- The closest block above both of two blocks. The one that comes later in the order moves up. -/
def meet (order : List BlockId) (idoms : Table BlockId BlockId) :
    Nat → BlockId → BlockId → BlockId
  | 0, a, _ => a
  | n + 1, a, b =>
    if a = b then a
    else if order.idxOf b < order.idxOf a then
      match idoms.get? a with
      | some d => if d = a then b else meet order idoms n d b
      | none => b
    else
      match idoms.get? b with
      | some d => if d = b then a else meet order idoms n a d
      | none => a

def meetAll (order : List BlockId) (idoms : Table BlockId BlockId) (preds : List BlockId) :
    Option BlockId :=
  match preds.filter idoms.contains with
  | [] => none
  | p :: ps => some (ps.foldl (meet order idoms (2 * order.length + 1)) p)

def improve (order : List BlockId) (preds : Table BlockId (List BlockId))
    (idoms : Table BlockId BlockId) (b : BlockId) : Table BlockId BlockId :=
  match meetAll order idoms ((preds.get? b).getD []) with
  | none => idoms
  | some d => idoms.insert b d

def pass (order : List BlockId) (preds : Table BlockId (List BlockId))
    (idoms : Table BlockId BlockId) : Table BlockId BlockId :=
  order.tail.foldl (improve order preds) idoms

def settle (order : List BlockId) (preds : Table BlockId (List BlockId)) :
    Nat → Table BlockId BlockId → Table BlockId BlockId
  | 0, idoms => idoms
  | n + 1, idoms =>
    let next := pass order preds idoms
    if next = idoms then idoms else settle order preds n next

def ofGraph (g : Graph) : Dominators :=
  let order := g.reversePostorder
  let n := order.length
  let start := Table.empty.insert g.entry g.entry
  let idoms := settle order g.predecessorTable (n * (n + 1) + 1) start
  ⟨idoms.erase g.entry, order, g.entry⟩

def idom? (d : Dominators) (b : BlockId) : Option BlockId := d.idoms.get? b

def isReachable (d : Dominators) (b : BlockId) : Bool := b = d.entry || d.idoms.contains b

def isAbove (d : Dominators) (a : BlockId) : Nat → BlockId → Bool
  | 0, _ => false
  | n + 1, b => match d.idom? b with
    | none => false
    | some p => p = a || isAbove d a n p

def dominates (d : Dominators) (a b : BlockId) : Bool :=
  a = b || !d.isReachable b || d.isAbove a (d.order.length + 1) b

def strictlyDominates (d : Dominators) (a b : BlockId) : Bool := a ≠ b && d.dominates a b

end Dominators

end SiteFusion
