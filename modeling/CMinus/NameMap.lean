namespace CMinus

/-- A list of entries whose names strictly increase. -/
def NameMap.Sorted {α : Type} (entries : List (String × α)) : Prop :=
  entries.Pairwise (·.1 < ·.1)

/-- Two maps with the same content are equal and are written the same way. -/
structure NameMap (α : Type) where
  entries : List (String × α)
  sorted : NameMap.Sorted entries
  deriving DecidableEq

namespace NameMap

variable {α : Type}

def empty : NameMap α := ⟨[], .nil⟩

instance : Inhabited (NameMap α) := ⟨empty⟩

def find (name : String) : List (String × α) → Option α
  | [] => none
  | (key, value) :: rest => if name = key then some value else find name rest

def get? (m : NameMap α) (name : String) : Option α :=
  find name m.entries

def contains (m : NameMap α) (name : String) : Bool :=
  (m.get? name).isSome

def place (name : String) (value : α) : List (String × α) → List (String × α)
  | [] => [(name, value)]
  | (key, old) :: rest =>
    if name < key then (name, value) :: (key, old) :: rest
    else if name = key then (name, value) :: rest
    else (key, old) :: place name value rest

theorem mem_place {name : String} {value : α} {entry : String × α} {entries : List (String × α)}
    (h : entry ∈ place name value entries) : entry = (name, value) ∨ entry ∈ entries := by
  induction entries with
  | nil => simpa [place] using h
  | cons head rest ih => grind [place]

theorem Sorted.place {entries : List (String × α)} (h : Sorted entries) (name : String)
    (value : α) : Sorted (place name value entries) := by
  induction entries with
  | nil => simp [NameMap.place, Sorted]
  | cons head rest ih =>
    have ⟨hhead, hrest⟩ := List.pairwise_cons.1 h
    rw [NameMap.place]
    split
    · exact List.pairwise_cons.2 ⟨by grind, h⟩
    · split
      · exact List.pairwise_cons.2 ⟨by grind, hrest⟩
      · refine List.pairwise_cons.2 ⟨fun entry hentry => ?_, ih hrest⟩
        have := mem_place hentry
        grind

/-- Binds `name` to `value`; an earlier binding of `name` is replaced. -/
def insert (m : NameMap α) (name : String) (value : α) : NameMap α :=
  ⟨place name value m.entries, m.sorted.place name value⟩

theorem find_place (name key : String) (value : α) (entries : List (String × α)) :
    find key (place name value entries) = if key = name then some value else find key entries := by
  induction entries with
  | nil => simp [find, place]
  | cons head rest ih => grind [find, place]

@[simp]
theorem get?_insert (m : NameMap α) (name key : String) (value : α) :
    (m.insert name value).get? key = if key = name then some value else m.get? key :=
  find_place name key value m.entries

@[simp]
theorem get?_empty (name : String) : (empty : NameMap α).get? name = none := rfl

def keys (m : NameMap α) : List String :=
  m.entries.map (·.1)

end NameMap

end CMinus
