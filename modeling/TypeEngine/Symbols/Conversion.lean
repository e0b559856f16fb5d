import TypeEngine.Ty.Display

/-!
The graph of implicit conversions. Sources are filed by the keys of path and arguments,
destinations are compared as types. An edge warns as long as every addition of it warns.
-/

namespace TypeEngine

/-- A conversion to `dest`; it warns when it may lose information. -/
structure ConversionEdge where
  dest : Ty
  warning : Bool

structure FiledEdge where
  mainKey : String
  extraKey : String
  edge : ConversionEdge

/-- Edges, with a counter that goes up with each new one. -/
structure ConversionGraph where
  filed : List FiledEdge
  count : Nat
  counted : count = filed.length

namespace ConversionGraph

def empty : ConversionGraph := ⟨[], 0, rfl⟩

instance : Inhabited ConversionGraph := ⟨empty⟩

def FiledEdge.leaves (f : FiledEdge) (src : Ty) : Bool :=
  f.mainKey = src.main.key && f.extraKey = Slot.key src.extra

/-- Adds an edge at the end of a list, or weakens the warning of the one that is there. -/
def addTo (src dst : Ty) (warning : Bool) : List FiledEdge → List FiledEdge
  | [] => [⟨src.main.key, Slot.key src.extra, ⟨dst, warning⟩⟩]
  | f :: rest =>
    if FiledEdge.leaves f src && f.edge.dest == dst then
      { f with edge := { f.edge with warning := f.edge.warning && warning } } :: rest
    else f :: addTo src dst warning rest

/-- An edge that is there is changed in place. -/
theorem length_addTo (src dst : Ty) (warning : Bool) (filed : List FiledEdge) :
    (addTo src dst warning filed).length =
      if filed.any (fun f => FiledEdge.leaves f src && f.edge.dest == dst) then filed.length
      else filed.length + 1 := by
  induction filed with
  | nil => rfl
  | cons f rest ih =>
    rw [addTo, List.any_cons]
    cases FiledEdge.leaves f src && f.edge.dest == dst with
    | true => rfl
    | false =>
      rw [if_neg Bool.false_ne_true, List.length_cons, ih, Bool.false_or]
      split <;> rfl

def add (g : ConversionGraph) (src dst : Ty) (warning : Bool) : ConversionGraph where
  filed := addTo src dst warning g.filed
  count :=
    if g.filed.any (fun f => FiledEdge.leaves f src && f.edge.dest == dst) then g.count
    else g.count + 1
  counted := by rw [length_addTo, g.counted]

/-- The direct conversions from `src`, in order of first addition. -/
def edges (g : ConversionGraph) (src : Ty) : List ConversionEdge :=
  (g.filed.filter (FiledEdge.leaves · src)).map FiledEdge.edge

def size (g : ConversionGraph) : Nat := g.count

end ConversionGraph

/-- Whether a destination can be reached, and the types passed on the way to it. -/
structure Reachability where
  found : Bool := false
  warning : Bool := false
  path : List Ty := []

end TypeEngine
