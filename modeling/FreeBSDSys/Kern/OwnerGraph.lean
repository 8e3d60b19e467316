import FreeBSDSys.Lib.Reachability
import FreeBSDSys.Lib.Renumber
import FreeBSDSys.Lib.StampSearch

/-!
# The lock owner graph of `kern_lockf.c`

Byte-range locking keeps one global graph of lock owners: an edge `x → y` says that some request
of `x` waits for a lock of `y`.  The vertices are kept in a topological order, and an edge is only
added when it closes no cycle; that is the deadlock test of the lock manager.

The file embeds `graph_init`, `graph_alloc_vertex`, `graph_free_vertex`, `graph_add_edge` with its
helpers, and `graph_remove_edge`.

## How the structures are read

* A vertex is a pointer, so the vertices are values of an arbitrary type `V` with decidable
  equality.  The fields `v_order` and `v_gen` of a vertex are functions on `V`.
* `g_vertices[0 .. g_size)` is the list `gVertices`, so `g_size` is its length.  `g_space` only
  says how much room was allocated.
* An edge is inserted at the head of the source's `v_outedges` and of the target's `v_inedges` at
  the same moment, and removed from both together.  So one list of edges, newest first, holds
  both: the out-edges of `v` are its sublist of edges from `v`, in the order of the C list.
* `g_gen` and `v_gen` are 32-bit words, since `graph_add_edge` has code for their wrapping.
* The buffer `g_indexbuf` is only used inside `graph_add_edge` and is a local list here.
-/

namespace FreeBSDSys.Lockf

universe u

/-- The results the functions of `kern_lockf.c` return; `ok` is the result 0. -/
inductive Errno where
  | ok
  | EDEADLK
  | EAGAIN
  | EINPROGRESS
  | EINTR
  | ENOENT
  | EINVAL
  | EOVERFLOW
  deriving DecidableEq, Repr

/-- `struct owner_edge`. -/
structure OwnerEdge (V : Type u) where
  eFrom : V
  eTo : V
  eRefs : ℕ
  deriving DecidableEq

/-- `struct owner_graph`, with the fields of its vertices. -/
structure OwnerGraph (V : Type u) where
  gVertices : List V
  gSpace : ℕ
  gGen : BitVec 32
  vOrder : V → ℕ
  vGen : V → BitVec 32
  edges : List (OwnerEdge V)

variable {V : Type u} [DecidableEq V]

namespace OwnerGraph

/-- `v->v_outedges`. -/
def vOutedges (g : OwnerGraph V) (v : V) : List (OwnerEdge V) :=
  g.edges.filter fun e => decide (e.eFrom = v)

/-- `v->v_inedges`. -/
def vInedges (g : OwnerGraph V) (v : V) : List (OwnerEdge V) :=
  g.edges.filter fun e => decide (e.eTo = v)

/-- The out-edge of `x` that the loops over `x->v_outedges` stop at when they look for `y`. -/
def findEdge (g : OwnerGraph V) (x y : V) : Option (OwnerEdge V) :=
  (g.vOutedges x).find? fun e => decide (e.eTo = y)

/-- The count `e_refs` of the edge from `x` to `y`, and 0 when there is no such edge. -/
def edgeRefs (g : OwnerGraph V) (x y : V) : ℕ :=
  ((g.findEdge x y).map OwnerEdge.eRefs).getD 0

/-- There is an edge from `x` to `y`. -/
def HasEdge (g : OwnerGraph V) (x y : V) : Prop :=
  ∃ e ∈ g.edges, e.eFrom = x ∧ e.eTo = y

end OwnerGraph

open OwnerGraph

/-- `graph_init`. -/
def graphInit : OwnerGraph V where
  gVertices := []
  gSpace := 10
  gGen := 0
  vOrder := fun _ => 0
  vGen := fun _ => 0
  edges := []

/-- `graph_alloc_vertex`; `v` is the pointer that `malloc` returned. -/
def graphAllocVertex (g : OwnerGraph V) (v : V) : OwnerGraph V :=
  { g with
    gSpace := if g.gVertices.length = g.gSpace then 2 * g.gSpace else g.gSpace
    vOrder := Function.update g.vOrder v g.gVertices.length
    vGen := Function.update g.vGen v g.gGen
    gVertices := g.gVertices ++ [v] }

/-- `graph_free_vertex`: close the gap and renumber the vertices behind it. -/
def graphFreeVertex (g : OwnerGraph V) (v : V) : OwnerGraph V :=
  { g with
    gVertices := g.gVertices.eraseIdx (g.vOrder v)
    vOrder := fun w =>
      if w ∈ g.gVertices.drop (g.vOrder v + 1) then g.vOrder w - 1 else g.vOrder w }

/-! ## Adding an edge -/

/-- The generation step at the start of a reordering, with the reset when the counter wraps. -/
def graphNextGen (g : OwnerGraph V) : OwnerGraph V :=
  if g.gGen + 1 = 0 then
    { g with
      gGen := g.gGen + 1 + 1
      vGen := fun v => if v ∈ g.gVertices then 0 else g.vGen v }
  else { g with gGen := g.gGen + 1 }

/-- `graph_delta_forward`: the vertices reachable from `y` whose order is below that of `x`, or
an error (the result -1) when `x` itself is met.  Both results come with the stamps written into
the vertices.  One round of the search for every vertex is enough. -/
def graphDeltaForward (g : OwnerGraph V) (x y : V) :
    Except (OwnerGraph V) (OwnerGraph V × List V) :=
  match StampSearch.search (fun w => decide (w = x)) (fun w => decide (g.vOrder w < g.vOrder x))
      (fun v => (g.vOutedges v).map OwnerEdge.eTo) g.gGen g.gVertices.length g.vGen [] [y] with
  | .error vGen' => .error { g with vGen := vGen' }
  | .ok (vGen', delta) => .ok ({ g with vGen := vGen' }, delta)

/-- `graph_delta_backward`: the vertices that reach `x` whose order is above that of `y`.  New
vertices go to the head of the list and the walk is towards the head, so the list is the reverse
of the worklist. -/
def graphDeltaBackward (g : OwnerGraph V) (x y : V) : OwnerGraph V × List V :=
  match StampSearch.search (fun _ => false) (fun w => decide (g.vOrder y < g.vOrder w))
      (fun v => (g.vInedges v).map OwnerEdge.eFrom) g.gGen g.gVertices.length g.vGen [] [x] with
  | .error vGen' => ({ g with vGen := vGen' }, [])
  | .ok (vGen', delta) => ({ g with vGen := vGen' }, delta.reverse)

/-- `graph_add_indices`: an insertion sort of the orders of a set into the index buffer. -/
def graphAddIndices (g : OwnerGraph V) (indices : List ℕ) (set : List V) : List ℕ :=
  set.foldl (fun indices v => Renumber.insertBack indices (g.vOrder v)) indices

/-- The two assignments of `graph_assign_indices` for the vertex it picked. -/
def OwnerGraph.setOrder (g : OwnerGraph V) (v : V) (i : ℕ) : OwnerGraph V :=
  { g with
    vOrder := Function.update g.vOrder v i
    gVertices := g.gVertices.set i v }

/-- `graph_assign_indices`: hand out the unused indices, lowest vertex first.  Returns the
indices that are still unused. -/
def graphAssignIndices : List ℕ → List V → OwnerGraph V → OwnerGraph V × List ℕ
  | indices, [], g => (g, indices)
  | [], _ :: _, g => (g, [])
  | i :: indices, v :: set, g =>
    let vlowest := Renumber.lowest g.vOrder v set
    graphAssignIndices indices ((v :: set).erase vlowest) (g.setOrder vlowest i)

/-- The reordering branch of `graph_add_edge`, taken when `y` is before `x`. -/
def graphReorder (g : OwnerGraph V) (x y : V) : Errno × OwnerGraph V :=
  match graphDeltaForward (graphNextGen g) x y with
  | .error g₂ => (.EDEADLK, g₂)
  | .ok (g₂, deltaF) =>
    let (g₃, deltaB) := graphDeltaBackward g₂ x y
    let indices := graphAddIndices g₃ (graphAddIndices g₃ [] deltaF) deltaB
    let (g₄, unused) := graphAssignIndices indices deltaB g₃
    (.ok, (graphAssignIndices unused deltaF g₄).1)

/-- The new edge, inserted at the head of both edge lists. -/
def OwnerGraph.insertEdge (g : OwnerGraph V) (x y : V) : OwnerGraph V :=
  { g with edges := ⟨x, y, 1⟩ :: g.edges }

/-- `e->e_refs++` on the edge from `x` to `y`. -/
def OwnerGraph.bumpEdge (g : OwnerGraph V) (x y : V) : OwnerGraph V :=
  { g with edges := g.edges.map fun e =>
      if e.eFrom = x ∧ e.eTo = y then { e with eRefs := e.eRefs + 1 } else e }

/-- `graph_add_edge`. -/
def graphAddEdge (g : OwnerGraph V) (x y : V) : Errno × OwnerGraph V :=
  match g.findEdge x y with
  | some _ => (.ok, g.bumpEdge x y)
  | none =>
    if g.vOrder y < g.vOrder x then
      match graphReorder g x y with
      | (.ok, g') => (.ok, g'.insertEdge x y)
      | (err, g') => (err, g')
    else (.ok, g.insertEdge x y)

/-- `graph_remove_edge`: drop one reference, and the edge with the last one. -/
def graphRemoveEdge (g : OwnerGraph V) (x y : V) : OwnerGraph V :=
  { g with edges := g.edges.filterMap fun e =>
      if e.eFrom = x ∧ e.eTo = y then
        if e.eRefs - 1 = 0 then none else some { e with eRefs := e.eRefs - 1 }
      else some e }

end FreeBSDSys.Lockf
