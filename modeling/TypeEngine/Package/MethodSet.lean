import TypeEngine.Package.Shape

/-!
Method sets. A type has its own methods and those of the types embedded in it, level by level: what
is found at a level hides everything below it, and what is found twice at a level is no member.
-/

namespace TypeEngine.Package

structure Selection where
  id : MemberId
  signature : Signature
  /-- The type whose declaration documents the method, if it has one. -/
  declaring? : Option TypeName := none
  /-- The place of the embedded field through which the method is reached. -/
  via? : Option Nat := none

def Selection.name (s : Selection) : String := s.id.name

namespace Program

/-! ### Interfaces -/

def addNew (found more : List Selection) : List Selection :=
  found ++ more.filter fun s => !found.any (·.id = s.id)

/-- The methods of an interface with those of the interfaces embedded in it. -/
def interfaceMethodsAt (p : Program) : Nat → Shape → List Selection
  | 0, _ => []
  | fuel + 1, s =>
    match p.body? s with
    | some (.interface owner methods embeds) =>
      let own := methods.map fun (name, signature) =>
        { id := .of owner.package name, signature
          declaring? := if owner.package = "" then none else some owner }
      embeds.foldl (fun found e => addNew found (p.interfaceMethodsAt fuel e)) own
    | _ => []

def interfaceMethods (p : Program) (s : Shape) : List Selection :=
  p.interfaceMethodsAt (p.types.length + 1) s

/-! ### Levels -/

structure Level where
  type : Shape
  via? : Option Nat := none
  /-- It was reached through a pointer. -/
  indirect : Bool := false
  /-- It is embedded more than once at its level. -/
  repeated : Bool := false

def ownMethods (p : Program) : Shape → List (Selection × Bool)
  | .named package name args =>
    (p.methodsOf ⟨package, name⟩).map fun m =>
      ({ id := .of package m.name, signature := m.signature.subst (m.binding args)
         declaring? := if m.viaSynonym then none else some m.receiver }, m.viaPointer)
  | _ => []

/-- The methods at a type, each with whether it needs a pointer. -/
def methodsAt (p : Program) (l : Level) : List (Selection × Bool) :=
  let inherited := if p.isInterface l.type then p.interfaceMethods l.type else []
  (p.ownMethods l.type.resolved ++ inherited.map (·, false)).map fun (s, needsPointer) =>
    ({ s with via? := l.via? }, needsPointer && !l.indirect)

def fieldsAt (p : Program) (l : Level) : List MemberId :=
  match p.body? l.type with
  | some (.shape (.struct package labels _)) => labels.map fun f => .of package f.name
  | _ => []

def embeddedAt (p : Program) (l : Level) : List Level :=
  match p.body? l.type with
  | some (.shape (.struct _ labels types)) =>
    ((labels.zip types).zipIdx.filter fun ((f, _), _) => f.embedded).map fun ((_, t), i) =>
      { l with
        type := t.resolved.pointee.resolved
        via? := l.via? <|> some i
        indirect := l.indirect || isPointer t.resolved }
  | _ => []
where
  isPointer : Shape → Bool
    | .pointer _ => true
    | _ => false

/-- What is known of each name: a method, or nothing if the name is taken otherwise. -/
abbrev Members := List (MemberId × Option Selection)

def addMethod (found : Members) (s : Selection) (refused : Bool) : Members :=
  if refused || found.any (·.1 = s.id) then (s.id, none) :: found.filter (·.1 ≠ s.id)
  else (s.id, some s) :: found

/-- Adds what a level gives for names that are not known yet. -/
def addLevel (known found : Members) (fields : List MemberId) : Members :=
  let fresh := found.filter fun (id, _) => !known.any (·.1 = id)
  let methods := fresh.map fun (id, s) => (id, if fields.contains id then none else s)
  let taken := fields.filter fun id => !known.any (·.1 = id) && !fresh.any (·.1 = id)
  known ++ methods ++ taken.map (·, none)

/-- Keeps each type of a level once. -/
def merge : List Level → List Level
  | [] => []
  | l :: ls =>
    let again := ls.any (·.type == l.type)
    { l with repeated := l.repeated || again } :: (merge ls).filter fun k => !(k.type == l.type)

/-- The members of the types at a level and below it; `seen` are the types of the levels above. -/
def membersFrom (p : Program) : Nat → List Shape → Members → List Level → Members
  | 0, _, known, _ => known
  | _ + 1, _, known, [] => known
  | fuel + 1, seen, known, level =>
    let level := level.filter fun l => !seen.any (· == l.type)
    let methods := level.flatMap fun l => (p.methodsAt l).map fun (s, refused) => (s, refused || l.repeated)
    let found := methods.foldl (fun found (s, refused) => addMethod found s refused) []
    let known := addLevel known found (level.flatMap p.fieldsAt)
    membersFrom p fuel (seen ++ level.map Level.type) known (merge (level.flatMap p.embeddedAt))

/-- The number of types that the declared types are made of. -/
def size (p : Program) : Nat :=
  p.types.foldl (fun size d =>
    match d.body with
    | .shape s => size + s.parts.length
    | .interface .. => size + 1) 0

/-- The method set of a type, or of a pointer to it. Every level is of types that the declared types
or the type itself are made of. -/
def methodSet (p : Program) (s : Shape) (pointer : Bool) : List Selection :=
  let start : Level := { type := s.resolved, indirect := pointer }
  (p.membersFrom (p.size + s.parts.length + 2) [] [] [start]).filterMap Prod.snd

/-- The methods that values of a declared type are used with: those of a pointer to it, or those of
the type itself if it is an interface. -/
def methodsFor (p : Program) (s : Shape) : List Selection := p.methodSet s (!p.isInterface s)

/-! ### Interfaces that a type has -/

/-- The types that the values of an interface are restricted to. -/
def termsAt (p : Program) : Nat → Shape → List Shape
  | 0, _ => []
  | fuel + 1, s =>
    match p.body? s with
    | some (.interface _ _ embeds) =>
      embeds.flatMap fun e => if p.isInterface e then p.termsAt fuel e else [e]
    | _ => []

def terms (p : Program) (s : Shape) : List Shape := p.termsAt (p.types.length + 1) s

/-- The method set has every method of the interface. -/
def hasMethods (set : List Selection) (wanted : List Selection) : Bool :=
  wanted.all fun w => set.any fun s => s.id = w.id && s.signature.type == w.signature.type

/-- Pointers to the declared type have the interface. -/
def pointerImplements (p : Program) (s interface : Shape) : Bool :=
  hasMethods (p.methodSet s true) (p.interfaceMethods interface) &&
    (p.terms interface).all (· == .pointer s)

end Program

end TypeEngine.Package
