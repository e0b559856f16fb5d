import Mathlib.Data.List.Nodup
import Mathlib.Data.List.Pairwise
import TypeEngine.Proofs.Proto.Catalog

/-!
# Catalogs of schemas are complete

The catalog of a linked library has a type for each message, enum and service of the files reached
from its roots, and no other types but `Map` (`Library.catalog_complete`). What the members of these
types refer to is in the catalog as well, except for the entries of maps that methods take or return.
-/

namespace TypeEngine.Host

mutual

/-- The paths in a reference, at any depth. -/
def Ref.paths : Ref → List String
  | .mk path _ _ args => (if path = "" then [] else [path]) ++ Ref.allPaths args

def Ref.allPaths : List Ref → List String
  | [] => []
  | r :: rs => r.paths ++ Ref.allPaths rs

end

/-- The types of the members of a type. -/
def TypeInfo.memberRefs (t : TypeInfo) : List Ref :=
  t.properties.map Property.type ++ t.constants.map Constant.type ++
    (t.methods ++ t.constructors).flatMap fun m => m.ret :: m.params.map Param.type

theorem TypeInfo.memberRefs_declare (t : TypeInfo) : t.declare.memberRefs = t.memberRefs := by
  simp [memberRefs, declare, Function.comp_def]

end TypeEngine.Host

namespace TypeEngine.Proto

open Host (Catalog TypeInfo Callable Ref)

variable {x : Item} {α : Type} {m : Message} {scope p : String} {f : File}

/-! ### What a library declares -/

/-- Catalogs leave out the entries of maps and the messages that stand for primitives. -/
def Message.isHidden (path : String) (m : Message) : Bool := m.isMapEntry || (aliases.lookup path).isSome

def Item.path : Item → String
  | .message path _ | .enum path _ | .service path _ => path

/-- The item is one of these messages, or an enum in one of them. -/
def Item.Among (ms : List (String × Message)) : Item → Prop
  | .message path m => (path, m) ∈ ms ∧ m.isHidden path = false
  | .enum path e => ∃ x ∈ ms, e ∈ x.2.enums ∧ path = qualify x.1 e.name
  | .service .. => False

/-- The file declares the item, in its messages at any depth or beside them. -/
def File.Declares (f : File) : Item → Prop
  | .message path m => Item.Among f.allMessages (.message path m)
  | .enum path e => Item.Among f.allMessages (.enum path e) ∨ (e ∈ f.enums ∧ path = qualify f.package e.name)
  | .service path s => s ∈ f.services ∧ path = qualify f.package s.name

namespace Library

variable (l : Library) (roots : List String)

def Declares (x : Item) : Prop := ∃ f, l.Reaches roots f ∧ f.Declares x

/-- The message is declared in a reached file, be it hidden or not. -/
def Has (path : String) (m : Message) : Prop := ∃ f, l.Reaches roots f ∧ (path, m) ∈ f.allMessages

/-- The type of a field is declared in a reached file. -/
def Provides : FieldType → Prop
  | .scalar _ => True
  | .message path | .group path => ∃ m, l.Has roots path m
  | .enum path => ∃ e, l.Declares roots (.enum path e)
  | .named _ => False

/-- Some message that the catalog describes has a map. -/
def UsesMap : Prop :=
  ∃ path m, l.Declares roots (.message path m) ∧ ∃ x ∈ m.fields, (l.entry? x).isSome = true

/-- Some method takes or returns the message at `path`, which stands for the entries of a map. -/
def PassesEntry (path : String) : Prop :=
  (∃ m, l.Has roots path m ∧ m.isMapEntry = true) ∧
    ∃ f s m, l.Reaches roots f ∧ s ∈ f.services ∧ m ∈ s.methods ∧ (path = m.input ∨ path = m.output)

/-- The files are linked, no two things have one path, and what is referred to can be reached. -/
structure Linked : Prop where
  sound : ∀ f ∈ l.files, f.Sound True
  names : ((l.files.flatMap File.symbols).map Prod.fst).Nodup
  /-- What is left out of the catalog holds no declarations. -/
  hidden : ∀ path m, l.Has roots path m → m.isHidden path = true → m.nested = [] ∧ m.enums = []
  /-- Keys and values of maps are no maps. -/
  entries : ∀ path m, l.Has roots path m → m.isMapEntry = true → ∀ x ∈ m.fields, l.entry? x = none
  fields : ∀ path m, l.Has roots path m → ∀ x ∈ m.fields, l.Provides roots x.type
  methods : ∀ f, l.Reaches roots f → ∀ s ∈ f.services, ∀ m ∈ s.methods,
    (∃ input, l.Has roots m.input input) ∧ ∃ output, l.Has roots m.output output

end Library

/-! ### Items -/

theorem Item.among_append {ms ms' : List (String × Message)} :
    x.Among (ms ++ ms') ↔ x.Among ms ∨ x.Among ms' := by
  cases x with
  | message path m => simp only [Among, List.mem_append]; grind
  | enum path e => simp only [Among, List.mem_append]; grind
  | service path s => simp [Among]

theorem Item.among_flatMap {xs : List α} {g : α → List (String × Message)} :
    x.Among (xs.flatMap g) ↔ ∃ a ∈ xs, x.Among (g a) := by
  induction xs with
  | nil => cases x <;> simp [Among]
  | cons a xs ih => rw [List.flatMap_cons, among_append, ih, List.exists_mem_cons_iff]

/-- The items of a message are what is declared in it. -/
theorem Message.mem_items {linked : Prop} (sound : m.Sound linked)
    (bare : ∀ y ∈ m.withNested scope, y.2.isHidden y.1 = true → y.2.nested = [] ∧ y.2.enums = []) :
    x ∈ m.items scope ↔ x.Among (m.withNested scope) := by
  induction sound generalizing scope with
  | @intro m name fields enums nested entry ih =>
    rw [withNested_eq] at bare ⊢
    obtain ⟨own, below⟩ := List.forall_mem_cons.mp bare
    have inner : (∃ n ∈ m.nested, x ∈ n.items (qualify scope m.name)) ↔
        x.Among (m.nested.flatMap (·.withNested (qualify scope m.name))) := by
      rw [Item.among_flatMap]
      refine exists_congr fun n => and_congr_right fun inside => ih n inside fun y member => ?_
      exact below y (List.mem_flatMap.mpr ⟨n, inside, member⟩)
    rw [← List.singleton_append, Item.among_append, ← inner, items_eq]
    dsimp only
    change x ∈ (if m.isHidden (qualify scope m.name) then [] else _) ↔ _
    cases hidden : m.isHidden (qualify scope m.name) with
    | true =>
      obtain ⟨noNested, noEnums⟩ : m.nested = [] ∧ m.enums = [] := own hidden
      have none : ¬x.Among [(qualify scope m.name, m)] := by
        cases x <;> simp [Item.Among, noEnums]
        rintro rfl rfl
        exact hidden
      simp [noNested, none]
    | false =>
      rw [if_neg Bool.false_ne_true, List.cons_append, List.mem_cons, List.mem_append, List.mem_flatMap,
        List.mem_map]
      cases x <;> simp [Item.Among]
      all_goals grind

theorem File.mem_items {linked : Prop} (sound : f.Sound linked)
    (bare : ∀ y ∈ f.allMessages, y.2.isHidden y.1 = true → y.2.nested = [] ∧ y.2.enums = []) :
    x ∈ f.items ↔ f.Declares x := by
  have inMessages : (∃ m ∈ f.messages, x ∈ m.items f.package) ↔ x.Among f.allMessages := by
    rw [allMessages, Item.among_flatMap]
    refine exists_congr fun m => and_congr_right fun inside => ?_
    refine Message.mem_items (sound.messages m inside) fun y member => ?_
    exact bare y (List.mem_flatMap.mpr ⟨m, inside, member⟩)
  rw [items, List.mem_append, List.mem_append, List.mem_flatMap, inMessages]
  cases x with
  | message path m => simp [Declares]
  | enum path e => simp [Declares]; grind
  | service path s => simp [Declares, Item.Among]; grind

/-! ### Paths -/

theorem splitPath_qualify {name : String} (plain : '.' ∉ name.toList) :
    splitPath (qualify scope name) = (scope, name) := by
  have kept : ∀ c ∈ name.toList.reverse, (c != '.') = true := by
    intro c member
    rw [bne_iff_ne]
    rintro rfl
    exact plain (List.mem_reverse.mp member)
  -- the last name is what follows the last point, if there is one
  have last : ∀ before, before.takeWhile (· != '.') = [] →
      ((name.toList.reverse ++ before).takeWhile (· != '.')).reverse = name.toList := by
    intro before stops
    rw [List.takeWhile_append_of_pos kept, stops, List.append_nil, List.reverse_reverse]
  unfold qualify splitPath
  dsimp only
  split
  · rename_i empty
    subst empty
    have whole := last [] rfl
    rw [List.append_nil] at whole
    rw [whole, ← String.length_toList, Nat.sub_self, Nat.zero_sub, String.ofList_toList]
    rfl
  · have chars : (scope ++ "." ++ name).toList = scope.toList ++ '.' :: name.toList := by simp
    have parts : (scope ++ "." ++ name).toList.reverse = name.toList.reverse ++ '.' :: scope.toList.reverse := by
      simp [chars]
    have length : (scope ++ "." ++ name).length - name.toList.length - 1 = scope.toList.length := by
      rw [← String.length_toList, chars, List.length_append, List.length_cons]
      omega
    rw [parts, last _ (by simp), length, chars, List.take_left, String.ofList_toList, String.ofList_toList]

/-- The item has a name of its own in some scope. -/
def Item.Placed (x : Item) : Prop := ∃ scope name, IsName name ∧ x.path = qualify scope name

theorem IsName.plain {name : String} (isName : IsName name) : '.' ∉ name.toList := by
  intro member
  cases isName.chars _ member

theorem Item.path_info {l : Library} (placed : x.Placed) : (x.info l).path = x.path := by
  obtain ⟨scope, name, isName, same⟩ := placed
  cases x
  all_goals
    obtain rfl : _ = qualify scope name := same
    simp only [info, splitPath_qualify isName.plain]
    rfl

theorem Message.Sound.placed {linked : Prop} (sound : m.Sound linked) :
    ∀ x ∈ m.withNested scope, IsName x.2.name ∧ (∃ outer, x.1 = qualify outer x.2.name) ∧
      ∀ e ∈ x.2.enums, IsName e.name := by
  induction sound generalizing scope with
  | intro name fields enums nested entry ih =>
    rw [withNested_eq, List.forall_mem_cons]
    refine ⟨⟨name, ⟨scope, rfl⟩, enums⟩, fun x member => ?_⟩
    obtain ⟨n, inside, member⟩ := List.mem_flatMap.mp member
    exact ih n inside x member

theorem File.Sound.placed {linked : Prop} (sound : f.Sound linked) (declared : f.Declares x) :
    x.Placed := by
  have messages : ∀ y ∈ f.allMessages, IsName y.2.name ∧ (∃ outer, y.1 = qualify outer y.2.name) ∧
      ∀ e ∈ y.2.enums, IsName e.name := by
    intro y member
    obtain ⟨m, inside, member⟩ := List.mem_flatMap.mp member
    exact (sound.messages m inside).placed y member
  cases x with
  | message path m =>
    obtain ⟨name, ⟨outer, same⟩, _⟩ := messages _ declared.1
    exact ⟨outer, m.name, name, same⟩
  | enum path e =>
    rcases declared with ⟨y, member, inside, rfl⟩ | ⟨inside, rfl⟩
    · exact ⟨y.1, e.name, (messages y member).2.2 e inside, rfl⟩
    · exact ⟨f.package, e.name, sound.enums e inside, rfl⟩
  | service path s =>
    obtain ⟨inside, rfl⟩ := declared
    exact ⟨f.package, s.name, (sound.services s inside).name, rfl⟩

/-! ### Each path once -/

theorem count_flatMap_le {xs : List α} {g h : α → List String}
    (each : ∀ a ∈ xs, (g a).count p ≤ (h a).count p) : (xs.flatMap g).count p ≤ (xs.flatMap h).count p := by
  induction xs with
  | nil => exact Nat.le_refl _
  | cons a xs ih =>
    rw [List.flatMap_cons, List.flatMap_cons, List.count_append, List.count_append]
    have first := each a List.mem_cons_self
    have rest := ih fun a member => each a (List.mem_cons_of_mem _ member)
    omega

theorem Enum.count_le (scope p : String) (es : List Enum) :
    ((es.map fun e => Item.enum (qualify scope e.name) e).map Item.path).count p ≤
      ((es.flatMap (Enum.symbols scope)).map Prod.fst).count p := by
  induction es with
  | nil => exact Nat.le_refl _
  | cons e es ih =>
    simp only [List.map_cons, List.flatMap_cons, List.map_append, List.count_cons, List.count_append,
      Enum.symbols, Item.path] at ih ⊢
    omega

theorem Message.count_items {linked : Prop} (sound : m.Sound linked) (scope p : String) :
    ((m.items scope).map Item.path).count p ≤
      (((m.withNested scope).flatMap fun x => x.2.ownSymbols x.1).map Prod.fst).count p := by
  induction sound generalizing scope with
  | @intro m name fields enums nested entry ih =>
    rw [items_eq, withNested_eq, List.flatMap_cons, List.map_append, List.flatMap_assoc, List.map_flatMap]
    have inner := count_flatMap_le (p := p) fun n inside => ih n inside (qualify scope m.name)
    have own := Enum.count_le (qualify scope m.name) p m.enums
    dsimp only
    split
    · simp
    · simp only [ownSymbols, List.cons_append, List.map_cons, List.map_append, List.map_flatMap, List.count_cons,
        List.count_append, Item.path] at own inner ⊢
      omega

theorem Service.count_le (scope p : String) (ss : List Service) :
    ((ss.map fun s => Item.service (qualify scope s.name) s).map Item.path).count p ≤
      ((ss.flatMap (Service.symbols scope)).map Prod.fst).count p := by
  induction ss with
  | nil => exact Nat.le_refl _
  | cons s ss ih =>
    simp only [List.map_cons, List.flatMap_cons, List.map_append, List.count_cons, List.count_append,
      Service.symbols, Item.path] at ih ⊢
    omega

theorem File.symbols_eq (f : File) : f.symbols =
    (f.messages.flatMap fun m => (m.withNested f.package).flatMap fun x => x.2.ownSymbols x.1) ++
      f.enums.flatMap (Enum.symbols f.package) ++ f.services.flatMap (Service.symbols f.package) ++
      f.extensions.map fun x => (qualify f.package x.field.name, .leaf) := by
  rw [symbols, allMessages, List.flatMap_assoc]

theorem File.count_items {linked : Prop} (sound : f.Sound linked) :
    (f.items.map Item.path).count p ≤ (f.symbols.map Prod.fst).count p := by
  have messages := count_flatMap_le (p := p) fun m inside =>
    Message.count_items (sound.messages m inside) f.package p
  have enums := Enum.count_le f.package p f.enums
  have services := Service.count_le f.package p f.services
  simp only [items, symbols_eq, List.map_append, List.count_append, List.map_flatMap] at messages enums services ⊢
  omega

theorem File.count_messages :
    (f.allMessages.map Prod.fst).count p ≤ (f.symbols.map Prod.fst).count p := by
  have own : (f.allMessages.map Prod.fst).count p ≤
      ((f.allMessages.flatMap fun x => x.2.ownSymbols x.1).map Prod.fst).count p := by
    induction f.allMessages with
    | nil => exact Nat.le_refl _
    | cons x xs ih =>
      simp only [List.map_cons, List.flatMap_cons, List.map_append, List.count_cons, List.count_append,
        Message.ownSymbols, List.cons_append] at ih ⊢
      omega
  simp only [symbols, List.map_append, List.count_append]
  omega

theorem lookup_of_mem {xs : List (String × α)} (distinct : (xs.map Prod.fst).Nodup)
    {key : String} {a : α} (member : (key, a) ∈ xs) : xs.lookup key = some a := by
  induction xs with
  | nil => cases member
  | cons x xs ih =>
    rw [List.map_cons, List.nodup_cons] at distinct
    rcases List.mem_cons.mp member with rfl | member
    · rw [List.lookup_cons_self]
    · have other : (key == x.1) = false := by
        rw [beq_eq_false_iff_ne]
        rintro rfl
        exact distinct.1 (List.mem_map.mpr ⟨_, member, rfl⟩)
      rw [List.lookup_cons, other, ih distinct.2 member]

namespace Library.Linked

variable {l : Library} {roots : List String} (linked : l.Linked roots)
include linked

theorem message? {path : String} (has : l.Has roots path m) : l.message? path = some m := by
  obtain ⟨f, reaches, member⟩ := has
  refine lookup_of_mem ?_ (List.mem_flatMap.mpr ⟨f, reaches.mem, member⟩)
  rw [List.nodup_iff_count]
  intro p
  have once := List.nodup_iff_count.mp linked.names p
  rw [List.map_flatMap] at once ⊢
  exact Nat.le_trans (count_flatMap_le fun f _ => File.count_messages) once

theorem mem_items : x ∈ (l.reached roots).flatMap File.items ↔ l.Declares roots x := by
  rw [List.mem_flatMap]
  refine exists_congr fun f => ?_
  rw [mem_reached_iff]
  refine and_congr_right fun reaches => File.mem_items (linked.sound f reaches.mem) fun y member => ?_
  exact linked.hidden y.1 y.2 ⟨f, reaches, member⟩

theorem placed (declared : l.Declares roots x) : x.Placed := by
  obtain ⟨f, reaches, declared⟩ := declared
  exact (linked.sound f reaches.mem).placed declared

theorem nodup_paths : (((l.reached roots).flatMap File.items).map Item.path).Nodup := by
  have names := linked.names
  rw [List.map_flatMap] at names ⊢
  obtain ⟨each, apart⟩ := List.nodup_flatMap.mp names
  have symbol : ∀ f ∈ l.reached roots, ∀ p ∈ f.items.map Item.path, p ∈ f.symbols.map Prod.fst := by
    intro f member p listed
    have count := File.count_items (linked.sound f (mem_reached_iff.mp member).mem) (p := p)
    have some := List.count_pos_iff.mpr listed
    exact List.count_pos_iff.mp (by omega)
  refine List.nodup_flatMap.mpr ⟨fun f member => ?_, ?_⟩
  · rw [List.nodup_iff_count]
    have inside := (mem_reached_iff.mp member).mem
    have once := List.nodup_iff_count.mp (each f inside)
    exact fun p => Nat.le_trans (File.count_items (linked.sound f inside)) (once p)
  · refine (List.Nodup.of_map _ (nodup_reached l roots)).pairwise_of_forall_ne fun f left g right other => ?_
    have symmetric : Std.Symm (Function.onFun List.Disjoint fun f : File => f.symbols.map Prod.fst) :=
      ⟨fun _ _ disjoint p first second => disjoint second first⟩
    have disjoint := apart.forall (mem_reached_iff.mp left).mem (mem_reached_iff.mp right).mem other
    intro p first second
    exact disjoint (symbol f left p first) (symbol g right p second)

end Library.Linked

/-! ### References -/

theorem paths_ofPath {path : String} {args : List Ref} (member : p ∈ (Ref.ofPath path args).paths) :
    p = path ∨ ∃ r ∈ args, p ∈ r.paths := by
  have below : ∀ rs : List Ref, p ∈ Ref.allPaths rs → ∃ r ∈ rs, p ∈ r.paths := by
    intro rs member
    induction rs with
    | nil => cases member
    | cons r rs ih =>
      rw [Ref.allPaths, List.mem_append] at member
      rcases member with member | member
      · exact ⟨r, List.mem_cons_self, member⟩
      · obtain ⟨r', inside, member⟩ := ih member
        exact ⟨r', List.mem_cons_of_mem _ inside, member⟩
  rw [Ref.ofPath, Ref.paths, List.mem_append] at member
  rcases member with member | member
  · left
    split at member
    · cases member
    · exact List.mem_singleton.mp member
  · exact .inr (below args member)

theorem paths_absent : p ∉ Ref.absent.paths := List.not_mem_nil

theorem Scalar.name_mem_aliases (s : Scalar) (other : s ≠ .bytes) : s.name ∈ aliases.map Prod.fst := by
  cases s <;> first | exact absurd rfl other | decide

theorem FieldType.ref_scalar {s : Scalar} (other : s ≠ .bytes) : (FieldType.scalar s).ref = .ofPath s.name := by
  cases s <;> first | rfl | exact absurd rfl other

theorem Library.entry?_eq_some {l : Library} {x : Field} {entry : Message} (found : l.entry? x = some entry) :
    ∃ path, (x.type = .message path ∨ x.type = .group path) ∧ l.message? path = some entry ∧
      entry.isMapEntry = true := by
  unfold entry? at found
  split at found
  · rename_i path type
    obtain ⟨found, isEntry⟩ := Option.filter_eq_some_iff.mp found
    exact ⟨path, .inl type, found, isEntry⟩
  · rename_i path type
    obtain ⟨found, isEntry⟩ := Option.filter_eq_some_iff.mp found
    exact ⟨path, .inr type, found, isEntry⟩
  · cases found

section

variable {l : Library} {roots : List String} {K : String → Prop}
  (aliased : ∀ p ∈ aliases.map Prod.fst, K p) (declared : ∀ x, l.Declares roots x → K x.path)
include aliased

variable {path : String}

theorem listOf_known {r : Ref} (known : ∀ p ∈ r.paths, K p) : ∀ p ∈ (listOf r).paths, K p := by
  intro p member
  rcases paths_ofPath member with rfl | ⟨r', inside, member⟩
  · exact aliased "list" (by decide)
  · exact known p (List.mem_singleton.mp inside ▸ member)

include declared

theorem message_known (has : l.Has roots path m) (notEntry : m.isMapEntry = false) :
    K path := by
  cases found : aliases.lookup path with
  | some model =>
    obtain ⟨before, after, parts, _⟩ := List.lookup_eq_some_iff.mp found
    exact aliased path (by simp [parts])
  | none =>
    obtain ⟨f, reaches, member⟩ := has
    refine declared (.message path m) ⟨f, reaches, member, ?_⟩
    rw [Message.isHidden, notEntry, found]
    rfl

variable (linked : l.Linked roots)
include linked

theorem type_known {x : Field} (provided : l.Provides roots x.type) (single : l.entry? x = none) :
    ∀ p ∈ x.type.ref.paths, K p := by
  have message : ∀ {path m}, l.Has roots path m → (l.message? path).filter (·.isMapEntry) = none →
      ∀ p ∈ (Ref.ofPath path).paths, K p := by
    intro path m has single p member
    rw [linked.message? has, Option.filter_eq_none_iff] at single
    obtain rfl := (paths_ofPath member).resolve_right (by simp)
    exact message_known aliased declared has (by simpa using single)
  unfold Library.entry? at single
  cases type : x.type with
  | scalar s =>
    by_cases bytes : s = .bytes
    · subst bytes
      refine listOf_known aliased fun p member => ?_
      obtain rfl := (paths_ofPath member).resolve_right (by simp)
      exact aliased "byte" (by decide)
    · intro p member
      rw [FieldType.ref_scalar bytes] at member
      obtain rfl := (paths_ofPath member).resolve_right (by simp)
      exact aliased s.name (s.name_mem_aliases bytes)
  | message path =>
    rw [type] at provided single
    obtain ⟨m, has⟩ := provided
    exact message has single
  | group path =>
    rw [type] at provided single
    obtain ⟨m, has⟩ := provided
    exact message has single
  | enum path =>
    rw [type] at provided
    obtain ⟨e, declares⟩ := provided
    intro p member
    obtain rfl := (paths_ofPath member).resolve_right (by simp)
    exact declared _ declares
  | named name =>
    rw [type] at provided
    exact provided.elim

theorem entry_known {entry : Message} (has : l.Has roots path entry)
    (isEntry : entry.isMapEntry = true) (n : Int) : ∀ p ∈ (entry.refOf n).paths, K p := by
  rw [Message.refOf]
  cases found : entry.fields.find? (·.number = n) with
  | none => exact fun p member => absurd member paths_absent
  | some x =>
    have member := List.mem_of_find?_eq_some found
    exact type_known aliased declared linked (linked.fields path entry has x member)
      (linked.entries path entry has isEntry x member)

theorem field_known (map : l.UsesMap roots → K mapPath)
    (shown : l.Declares roots (.message path m)) {x : Field} (member : x ∈ m.fields) :
    ∀ p ∈ (l.fieldRef x).paths, K p := by
  obtain ⟨f, reaches, inside, visible⟩ := shown
  have has : l.Has roots path m := ⟨f, reaches, inside⟩
  have provided := linked.fields path m has x member
  unfold Library.fieldRef
  cases found : l.entry? x with
  | some entry =>
    have used : l.UsesMap roots := ⟨path, m, ⟨f, reaches, inside, visible⟩, x, member, by rw [found]; rfl⟩
    obtain ⟨path', type, looked, isEntry⟩ := Library.entry?_eq_some found
    have provides : ∃ m', l.Has roots path' m' := by
      rcases type with type | type
      · rw [type] at provided
        exact provided
      · rw [type] at provided
        exact provided
    obtain ⟨entry', has'⟩ := provides
    obtain rfl : entry' = entry := Option.some.inj ((linked.message? has').symm.trans looked)
    intro p member
    rcases paths_ofPath member with rfl | ⟨r, inside, member⟩
    · exact map used
    · have either : r = entry'.refOf 1 ∨ r = entry'.refOf 2 := by simpa using inside
      rcases either with rfl | rfl
      · exact entry_known aliased declared linked has' isEntry 1 p member
      · exact entry_known aliased declared linked has' isEntry 2 p member
  | none =>
    have single := type_known aliased declared linked provided found
    dsimp only
    split
    · exact listOf_known aliased single
    · exact single

/-- Whatever the members of an item refer to is known, if the entries that methods pass are. -/
theorem Item.known (map : l.UsesMap roots → K mapPath) (passed : ∀ p, l.PassesEntry roots p → K p)
    (shown : l.Declares roots x) : ∀ r ∈ (x.info l).memberRefs, ∀ p ∈ r.paths, K p := by
  cases x with
  | message path m =>
    intro r member
    have either : (∃ x ∈ m.fields, l.fieldRef x = r) ∨ r = .absent := by
      simpa [info, TypeInfo.memberRefs] using member
    rcases either with ⟨x, inside, rfl⟩ | rfl
    · exact field_known aliased declared linked map shown inside
    · exact fun p member => absurd member paths_absent
  | enum path e =>
    intro r member p occurs
    have own : r = .ofPath path := by
      have found : ∃ v ∈ e.values, Ref.ofPath path = r := by
        simpa [info, TypeInfo.memberRefs] using member
      obtain ⟨_, _, same⟩ := found
      exact same.symm
    subst own
    obtain rfl := (paths_ofPath occurs).resolve_right (by simp)
    exact declared _ shown
  | service path s =>
    obtain ⟨f, reaches, inside, rfl⟩ := shown
    intro r member
    have found : ∃ m ∈ s.methods, ∃ (path : String) (many : Bool), (path = m.input ∨ path = m.output) ∧
        r = if many then listOf (.ofPath path) else .ofPath path := by
      have found : ∃ m ∈ s.methods, r = m.callable.ret ∨ ∃ p ∈ m.callable.params, p.type = r := by
        simpa [info, TypeInfo.memberRefs] using member
      obtain ⟨m, listed, rfl | ⟨p, only, rfl⟩⟩ := found
      · exact ⟨m, listed, m.output, m.serverStreaming, .inr rfl, rfl⟩
      · obtain rfl := List.mem_singleton.mp only
        exact ⟨m, listed, m.input, m.clientStreaming, .inl rfl, rfl⟩
    obtain ⟨m, listed, path, many, role, rfl⟩ := found
    have has : ∃ message, l.Has roots path message := by
      obtain ⟨input, output⟩ := linked.methods f reaches s inside m listed
      rcases role with rfl | rfl
      · exact input
      · exact output
    obtain ⟨message, has⟩ := has
    have single : ∀ p ∈ (Ref.ofPath path).paths, K p := by
      intro p occurs
      obtain rfl := (paths_ofPath occurs).resolve_right (by simp)
      cases isEntry : message.isMapEntry with
      | false => exact message_known aliased declared has isEntry
      | true => exact passed p ⟨⟨message, has, isEntry⟩, f, s, m, reaches, inside, listed, role⟩
    cases many with
    | true => exact listOf_known aliased single
    | false => exact single

end

/-! ### Catalogs -/

theorem aliasPaths_startingCatalog : startingCatalog.aliasPaths = aliases.map Prod.fst := by decide

theorem addMap {c : Catalog} (unfrozen : c.frozen = false) (distinct : c.typePaths.Nodup) :
    ∃ more, (c.addType { name := mapPath, typeParams := ["K", "V"] }).toOption.getD c =
        { c with types := c.types ++ more } ∧
      ((c.types ++ more).map TypeInfo.path).Nodup ∧ (∀ t ∈ more, t.memberRefs = []) ∧
      ∀ path, path ∈ (c.types ++ more).map TypeInfo.path ↔ path ∈ c.typePaths ∨ path = mapPath := by
  cases withMap : c.addType { name := mapPath, typeParams := ["K", "V"] } with
  | ok c' =>
    obtain ⟨rfl, kept⟩ := Catalog.addType_ok withMap
    refine ⟨_, rfl, kept distinct, fun t member => ?_, fun path => ?_⟩
    · rw [List.mem_singleton.mp member]
      rfl
    · rw [List.map_append, List.mem_append, List.map_singleton, List.mem_singleton]
      rfl
  | error refusal =>
    have known : mapPath ∈ c.typePaths := by
      rw [Catalog.addType, unfrozen, if_neg Bool.false_ne_true] at withMap
      split at withMap
      · rename_i found
        exact Catalog.lookup?_isSome.mp found
      · cases withMap
    refine ⟨[], by rw [List.append_nil]; rfl, by rwa [List.append_nil],
      fun _ member => absurd member List.not_mem_nil, fun path => ?_⟩
    rw [List.append_nil]
    constructor
    · exact .inl
    · rintro (member | rfl)
      · exact member
      · exact known

namespace Library

/-- A catalog of schemas with these types. -/
def catalogOf (ts : List TypeInfo) : Catalog := { startingCatalog with types := ts }

/-- The types of a catalog without `Map`. -/
def shown (l : Library) (roots : List String) : List TypeInfo :=
  ((l.reached roots).flatMap File.items).map fun x => (x.info l).declare

variable {l : Library} {roots : List String} (linked : l.Linked roots)
include linked

theorem any_usesMap : ((l.reached roots).flatMap File.items).any (·.usesMap l) = true ↔ l.UsesMap roots := by
  rw [List.any_eq_true]
  constructor
  · rintro ⟨x, member, uses⟩
    have shown := linked.mem_items.mp member
    cases x with
    | message path m => exact ⟨path, m, shown, List.any_eq_true.mp uses⟩
    | enum => cases uses
    | service => cases uses
  · rintro ⟨path, m, shown, uses⟩
    exact ⟨.message path m, linked.mem_items.mpr shown, List.any_eq_true.mpr uses⟩

theorem paths_shown : (l.shown roots).map TypeInfo.path = ((l.reached roots).flatMap File.items).map Item.path := by
  rw [shown, List.map_map]
  exact List.map_congr_left fun x member => Item.path_info (linked.placed (linked.mem_items.mp member))

theorem mem_paths_shown {path : String} :
    path ∈ (l.shown roots).map TypeInfo.path ↔ ∃ x, l.Declares roots x ∧ x.path = path := by
  rw [paths_shown linked, List.mem_map]
  exact exists_congr fun x => and_congr_left fun _ => linked.mem_items

/-- A catalog has the types of the items in the reached files, and at most `Map` beside them. -/
theorem catalog_eq : ∃ more,
    l.catalog roots = .ok (catalogOf (l.shown roots ++ more)).freeze ∧
    ((l.shown roots ++ more).map TypeInfo.path).Nodup ∧ (∀ t ∈ more, t.memberRefs = []) ∧
    ∀ path, path ∈ (l.shown roots ++ more).map TypeInfo.path ↔
      path ∈ (l.shown roots).map TypeInfo.path ∨ (l.UsesMap roots ∧ path = mapPath) := by
  have distinct : ((l.shown roots).map TypeInfo.path).Nodup := paths_shown linked ▸ linked.nodup_paths
  have start : (((l.reached roots).flatMap File.items).map (·.info l)).foldlM Catalog.addType startingCatalog =
      .ok (catalogOf (l.shown roots)) := by
    have infos : (((l.reached roots).flatMap File.items).map (·.info l)).map TypeInfo.path =
        (l.shown roots).map TypeInfo.path := by
      rw [shown, List.map_map, List.map_map]
      rfl
    rw [Catalog.foldlM_addType_of_nodup rfl (by rw [infos]; exact distinct), List.map_map]
    rfl
  have uses := any_usesMap linked
  rw [catalog, start, Ty.bind_ok]
  dsimp only
  by_cases used : l.UsesMap roots
  · rw [if_pos (uses.mpr used)]
    obtain ⟨more, done, nodup, bare, paths⟩ := addMap (c := catalogOf (l.shown roots)) rfl distinct
    refine ⟨more, by rw [done]; rfl, nodup, bare, fun path => ?_⟩
    rw [and_iff_right used]
    exact paths path
  · rw [if_neg (fun found => used (uses.mp found))]
    refine ⟨[], by rw [List.append_nil]; rfl, by rwa [List.append_nil],
      fun _ member => absurd member List.not_mem_nil, fun path => ?_⟩
    rw [List.append_nil, or_iff_left fun both => used both.1]

/-- A catalog of schemas has each declared type once, and all that its members refer to but the entries
that methods pass. -/
theorem catalog_complete : ∃ c, l.catalog roots = .ok c ∧ c.typePaths.Nodup ∧
    (∀ path, path ∈ c.typePaths ↔
      (∃ x, l.Declares roots x ∧ x.path = path) ∨ (l.UsesMap roots ∧ path = mapPath)) ∧
    ∀ t ∈ c.types, ∀ r ∈ t.memberRefs, ∀ path ∈ r.paths,
      path ∈ c.aliasPaths ∨ path ∈ c.typePaths ∨ l.PassesEntry roots path := by
  obtain ⟨more, done, distinct, bare, paths⟩ := catalog_eq linked
  have types : ∀ path, path ∈ (l.shown roots ++ more).map TypeInfo.path ↔
      (∃ x, l.Declares roots x ∧ x.path = path) ∨ (l.UsesMap roots ∧ path = mapPath) := by
    intro path
    rw [paths, mem_paths_shown linked]
  refine ⟨_, done, distinct, types, fun t member r listed path occurs => ?_⟩
  rcases List.mem_append.mp member with member | member
  · obtain ⟨x, inside, rfl⟩ := List.mem_map.mp member
    rw [TypeInfo.memberRefs_declare] at listed
    refine Item.known (K := fun path => path ∈ startingCatalog.aliasPaths ∨
      path ∈ (l.shown roots ++ more).map TypeInfo.path ∨ l.PassesEntry roots path) ?_ ?_ linked ?_ ?_
      (linked.mem_items.mp inside) r listed path occurs
    · exact fun p aliased => .inl (aliasPaths_startingCatalog ▸ aliased)
    · exact fun x declares => .inr (.inl ((types _).mpr (.inl ⟨x, declares, rfl⟩)))
    · exact fun uses => .inr (.inl ((types _).mpr (.inr ⟨uses, rfl⟩)))
    · exact fun p passes => .inr (.inr passes)
  · rw [bare t member] at listed
    cases listed

end Library

/-! ### A library with a map -/

namespace Tagged

def leaf : Message :=
  { name := "Leaf"
    fields := [{ name := "color", number := 1, type := .enum "q.Leaf.Color" }]
    enums := [{ name := "Color", values := [{ name := "RED", number := 0 }] }] }

def entry : Message :=
  { name := "TagsEntry"
    fields := [{ name := "key", number := 1, type := .scalar .string },
      { name := "value", number := 2, type := .message "q.Leaf" }]
    isMapEntry := true }

def owner : Message :=
  { name := "M"
    fields := [{ name := "tags", number := 1, label := .repeated, type := .message "p.M.TagsEntry" }]
    nested := [entry] }

def leafFile : File := { name := "b.proto", package := "q", isProto3 := true, messages := [leaf] }

/-- A message with a map to what another file declares, and a service that takes `input`. -/
def ownerFile (input : String) : File :=
  { name := "a.proto", package := "p", imports := [{ path := "b.proto" }], isProto3 := true, messages := [owner]
    services := [{ name := "S", methods := [{ name := "Get", input, output := "p.M" }] }] }

def library (input : String) : Library := { files := [leafFile, ownerFile input] }

def messages : List (String × Message) := [("q.Leaf", leaf), ("p.M", owner), ("p.M.TagsEntry", entry)]

variable {input path : String} {m : Message}

theorem reaches_iff : (library input).Reaches ["a.proto"] f ↔ f = leafFile ∨ f = ownerFile input := by
  have files : (library input).reached ["a.proto"] = [leafFile, ownerFile input] := rfl
  rw [← Library.mem_reached_iff, files]
  simp

theorem has_iff : (library input).Has ["a.proto"] path m ↔ (path, m) ∈ messages := by
  have listed : messages = leafFile.allMessages ++ (ownerFile input).allMessages := rfl
  rw [listed, List.mem_append]
  constructor
  · rintro ⟨f, reaches, member⟩
    rcases reaches_iff.mp reaches with rfl | rfl
    · exact .inl member
    · exact .inr member
  · rintro (member | member)
    · exact ⟨_, reaches_iff.mpr (.inl rfl), member⟩
    · exact ⟨_, reaches_iff.mpr (.inr rfl), member⟩

theorem forall_has {P : String → Message → Prop} (first : P "q.Leaf" leaf) (second : P "p.M" owner)
    (third : P "p.M.TagsEntry" entry) : ∀ path m, (library input).Has ["a.proto"] path m → P path m := by
  intro path m has
  have listed := has_iff.mp has
  simp only [messages, List.mem_cons, List.not_mem_nil, or_false, Prod.mk.injEq] at listed
  rcases listed with ⟨rfl, rfl⟩ | ⟨rfl, rfl⟩ | ⟨rfl, rfl⟩
  · exact first
  · exact second
  · exact third

theorem sound (isPath : IsPath input) : ∀ f ∈ (library input).files, f.Sound True := by
  have leafSound : leaf.Sound True := by
    refine .intro (.of_all (by decide) (by decide)) (fun _ => ?_) ?_ ?_ ?_
    · exact List.forall_mem_singleton.mpr (IsPath.of_all (by decide) (by decide) (by decide))
    · exact List.forall_mem_singleton.mpr (.of_all (by decide) (by decide))
    · exact fun _ member => absurd member List.not_mem_nil
    · exact fun isEntry => by cases isEntry
  have entrySound : entry.Sound True := by
    refine .intro (.of_all (by decide) (by decide)) (fun _ => ?_) ?_ ?_ fun _ => ?_
    · exact List.forall_mem_cons.mpr ⟨trivial, List.forall_mem_singleton.mpr
        (IsPath.of_all (by decide) (by decide) (by decide))⟩
    · exact fun _ member => absurd member List.not_mem_nil
    · exact fun _ member => absurd member List.not_mem_nil
    · exact List.forall_mem_cons.mpr ⟨⟨_, List.mem_cons_self, rfl⟩, List.forall_mem_singleton.mpr
        ⟨_, List.mem_cons_of_mem _ List.mem_cons_self, rfl⟩⟩
  have ownerSound : owner.Sound True := by
    refine .intro (.of_all (by decide) (by decide)) (fun _ => ?_) ?_ ?_ ?_
    · exact List.forall_mem_singleton.mpr (IsPath.of_all (by decide) (by decide) (by decide))
    · exact fun _ member => absurd member List.not_mem_nil
    · exact List.forall_mem_singleton.mpr entrySound
    · exact fun isEntry => by cases isEntry
  have none : ∀ {α : Type} {P : α → Prop}, ∀ x ∈ ([] : List α), P x := fun _ member => absurd member List.not_mem_nil
  have packages : IsPath "q" ∧ IsPath "p" :=
    ⟨.of_all (by decide) (by decide) (by decide), .of_all (by decide) (by decide) (by decide)⟩
  have service : IsName "S" := .of_all (by decide) (by decide)
  have output : IsPath "p.M" := .of_all (by decide) (by decide) (by decide)
  refine List.forall_mem_cons.mpr ⟨⟨.inr packages.1, ?_, none, none⟩, List.forall_mem_singleton.mpr
    ⟨.inr packages.2, ?_, none, ?_⟩⟩
  · exact List.forall_mem_singleton.mpr leafSound
  · exact List.forall_mem_singleton.mpr ownerSound
  · exact List.forall_mem_singleton.mpr ⟨service, fun _ => List.forall_mem_singleton.mpr ⟨isPath, output⟩⟩

theorem linked (either : input = "p.M" ∨ input = "p.M.TagsEntry") : (library input).Linked ["a.proto"] := by
  have leafHere : (library input).Has ["a.proto"] "q.Leaf" leaf := has_iff.mpr List.mem_cons_self
  have ownerHere : (library input).Has ["a.proto"] "p.M" owner :=
    has_iff.mpr (List.mem_cons_of_mem _ List.mem_cons_self)
  have entryHere : (library input).Has ["a.proto"] "p.M.TagsEntry" entry :=
    has_iff.mpr (List.mem_cons_of_mem _ (List.mem_cons_of_mem _ List.mem_cons_self))
  have inputHere : ∃ m, (library input).Has ["a.proto"] input m := by
    rcases either with rfl | rfl
    · exact ⟨_, ownerHere⟩
    · exact ⟨_, entryHere⟩
  refine ⟨sound ?_, ?_, forall_has ?_ ?_ ?_, forall_has ?_ ?_ ?_, forall_has ?_ ?_ ?_, ?_⟩
  · rcases either with rfl | rfl <;> exact .of_all (by decide) (by decide) (by decide)
  · rcases either with rfl | rfl <;> decide +kernel
  · exact fun hidden => by cases hidden
  · exact fun hidden => by cases hidden
  · exact fun _ => ⟨rfl, rfl⟩
  · exact fun isEntry => by cases isEntry
  · exact fun isEntry => by cases isEntry
  · refine fun _ => List.forall_mem_cons.mpr ⟨rfl, List.forall_mem_singleton.mpr ?_⟩
    rfl
  · exact List.forall_mem_singleton.mpr ⟨_, leafFile, reaches_iff.mpr (.inl rfl),
      .inl ⟨_, List.mem_cons_self, List.mem_cons_self, rfl⟩⟩
  · exact List.forall_mem_singleton.mpr ⟨_, entryHere⟩
  · exact List.forall_mem_cons.mpr ⟨trivial, List.forall_mem_singleton.mpr ⟨_, leafHere⟩⟩
  · intro f reaches
    rcases reaches_iff.mp reaches with rfl | rfl
    · exact fun _ member => absurd member List.not_mem_nil
    · exact List.forall_mem_singleton.mpr (List.forall_mem_singleton.mpr ⟨inputHere, _, ownerHere⟩)

end Tagged

namespace Library

/-- The entry in between is left out, and the types around it are there. -/
theorem catalog_complete_tagged : ∃ c, (Tagged.library "p.M").catalog ["a.proto"] = .ok c ∧
    c.typePaths.Nodup ∧ "p.M.TagsEntry" ∉ c.typePaths ∧ "Map" ∈ c.typePaths ∧
    ∀ t ∈ c.types, ∀ r ∈ t.memberRefs, ∀ path ∈ r.paths, path ∈ c.aliasPaths ∨ path ∈ c.typePaths := by
  have unpassed : ∀ path, ¬(Tagged.library "p.M").PassesEntry ["a.proto"] path := by
    rintro path ⟨⟨m, has, isEntry⟩, f, s, method, reaches, inside, listed, role⟩
    have onlyEntry : path = "p.M.TagsEntry" := by
      refine Tagged.forall_has (P := fun path m => m.isMapEntry = true → path = "p.M.TagsEntry") ?_ ?_ ?_ path m
        has isEntry
      · exact fun isEntry => by cases isEntry
      · exact fun isEntry => by cases isEntry
      · exact fun _ => rfl
    rcases Tagged.reaches_iff.mp reaches with rfl | rfl
    · cases inside
    · obtain rfl := List.mem_singleton.mp inside
      obtain rfl := List.mem_singleton.mp listed
      have owner : path = "p.M" := role.elim id id
      exact absurd (onlyEntry.symm.trans owner) (by decide)
  obtain ⟨c, done, distinct, _, closed⟩ := catalog_complete (Tagged.linked (.inl rfl))
  have computed : (Tagged.library "p.M").catalog ["a.proto"] = .ok _ := rfl
  rw [done] at computed
  cases computed
  refine ⟨_, done, distinct, by decide +kernel, by decide +kernel, fun t member r listed path occurs => ?_⟩
  rcases closed t member r listed path occurs with aliased | typed | passed
  · exact .inl aliased
  · exact .inr typed
  · exact absurd passed (unpassed path)

/-- A method that takes an entry of a map refers to a type that the catalog does not have. -/
theorem catalog_passed_entry : (Tagged.library "p.M.TagsEntry").Linked ["a.proto"] ∧
    ∃ c, (Tagged.library "p.M.TagsEntry").catalog ["a.proto"] = .ok c ∧
      ∃ t ∈ c.types, ∃ r ∈ t.memberRefs, ∃ path ∈ r.paths, path ∉ c.aliasPaths ∧ path ∉ c.typePaths := by
  refine ⟨Tagged.linked (.inr rfl), _, rfl, ?_⟩
  exact ⟨_, List.mem_of_getElem? (i := 3) rfl, _, List.mem_of_getElem? (i := 1) rfl, "p.M.TagsEntry",
    by decide +kernel, by decide +kernel, by decide +kernel⟩

end Library

end TypeEngine.Proto
