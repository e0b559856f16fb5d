import TypeEngine.Engine.HostType

/-!
Direct supertypes and base chains. The supertypes of a declared type come from its declaration;
those of other types are the built-in interfaces and what the host catalog says.
-/

namespace TypeEngine.Engine

open Host

/-- Binds the parameters of a declaration to the arguments of `t`. -/
def declSubst (decl : TypeDecl) (t : Ty) : Subst := t.bindParams (decl.params.map Restriction.name)

/-- Instantiates references, leaving out those without a type. -/
def hostSupertypes (e : Engine) (s : Subst) (isInterface : Bool) :
    List Ref → Except Violation (List Supertype)
  | [] => .ok []
  | r :: rs => do
    let type? ← e.instantiateRef r s
    let more ← hostSupertypes e s isInterface rs
    return (type?.map fun type => { type, isInterface }).toList ++ more

/-- The base and the interfaces of `t` in the host catalog, instantiated for its arguments. -/
def catalogSupertypes (e : Engine) (t : Ty) : Except Violation (List Supertype) := do
  match ← e.hostInfo t with
  | none => return []
  | some info =>
    let s := t.bindParams info.typeParams
    let bases ← e.hostSupertypes s false info.base?.toList
    return bases ++ (← e.hostSupertypes s true info.interfaces)

/-- The declared base of `t`, then the interfaces it implements, instantiated for its arguments. -/
def lookupSupertypes (e : Engine) (ts : Tables) (t : Ty) : Except Fault (List Supertype) :=
  match ts.type? t.main with
  | some decl => do
    let s := declSubst decl t
    let bases ← decl.base?.toList.mapM fun b => b.apply s e.maxDepth
    let ifaces ← (ts.interfaces? t.main).mapM fun i => i.apply s e.maxDepth
    return bases.map (⟨·, false⟩) ++ ifaces.map (⟨·, true⟩)
  | none => Except.mapError .broken do
    let builtin ← Builtin.interfaces t
    return builtin.map (⟨·, true⟩) ++ (← e.catalogSupertypes t)

/-- The direct supertypes of `t`, memoised by its key for one revision of the tables. -/
def directSupertypes (e : Engine) (t : Ty) : Query (List Supertype) := do
  let s ← get
  let s := if s.supersRevision = some s.tables.revision then s
    else { s with supers := [], supersRevision := some s.tables.revision }
  set s
  match s.supers.lookup t.key with
  | some found => return found
  | none =>
    let found ← Query.ofFault (e.lookupSupertypes s.tables t)
    modify fun s => { s with supers := (t.key, found) :: s.supers }
    return found

/-- Follows declared bases from `t` to the first one with property `p`, up to a base whose path is
already `seen`. `fuel` bounds the number of bases. -/
def findBaseFrom (e : Engine) (p : Ty → Bool) : Nat → List String → Ty → Query (Option Ty)
  | 0, _, _ => throw (.tooComplex .baseChain e.maxDepth)
  | fuel + 1, seen, t => do
    match (← e.directSupertypes t).find? (!·.isInterface) with
    | none => return none
    | some next =>
      let key := next.type.main.key
      if seen.contains key then return none
      else if p next.type then return some next.type
      else findBaseFrom e p fuel (key :: seen) next.type

/-- The nearest declared base of `t` with property `p`. -/
def findBase (e : Engine) (p : Ty → Bool) (t : Ty) : Query (Option Ty) :=
  e.findBaseFrom p (e.maxDepth + 1) [t.main.key] t

end TypeEngine.Engine
