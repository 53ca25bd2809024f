import Coinage.Scale

namespace Coinage

structure Urn (α : Type) where
  scale : Scale
  items : Array α
  size_items : items.size = scale.size

namespace Urn

variable {α σ : Type}

def empty : Urn α :=
  ⟨.empty, #[], rfl⟩

def size (urn : Urn α) : Nat :=
  urn.items.size

def isEmpty (urn : Urn α) : Bool :=
  urn.items.isEmpty

def total (urn : Urn α) : Float :=
  urn.scale.total

-- An urn with one more item. The urn itself is left as it is.
def add (urn : Urn α) (weight : Float) (item : α) : Except Fault (Urn α) :=
  match h : urn.scale.add weight with
  | .error fault => .error fault
  | .ok scale => .ok ⟨scale, urn.items.push item, by simp [Scale.size_add h, urn.size_items]⟩

-- Adds an item behind the others, whatever its weight.
def push (urn : Urn α) (weight : Float) (item : α) : Urn α :=
  ⟨urn.scale.push weight, urn.items.push item, by
    rw [Array.size_push, Scale.size_push, urn.size_items]⟩

-- Adds an item to the urn at hand, unless its weight is refused.
def put (weight : Float) (item : α) : ExceptT Fault (StateM (Urn α)) Unit := do
  unless Scale.fits (← get).total weight do
    throw (.invalidWeight weight)
  modify (·.push weight item)

-- Adds every item with the same weight. The weight is checked for all of them
-- before the first one is added.
def putAll (weight : Float) (items : List α) : ExceptT Fault (StateM (Urn α)) Unit := do
  unless Scale.fitsTimes weight items.length (← get).total do
    throw (.invalidWeight weight)
  items.forM fun item => modify (·.push weight item)

def draw [Source σ] (urn : Urn α) (source : σ) : Option α × σ :=
  let (position, source) := urn.scale.draw source
  (position.bind (urn.items[·]?), source)

def contains [BEq α] (urn : Urn α) (item : α) : Bool :=
  urn.items.contains item

def toList (urn : Urn α) : List (α × Float) :=
  urn.items.toList.zip urn.scale.weights

def display (text : α → Text) (urn : Urn α) : Text :=
  urn.scale.display (urn.items.toList.map text)

end Urn

end Coinage
