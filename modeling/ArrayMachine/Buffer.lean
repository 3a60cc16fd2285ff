import ArrayMachine.Element.Arithmetic

/-!
# Buffers

The stored elements of an array, all of one basic kind, a matrix row by row. `Buffer.elements` is
the view of a buffer as a list of elements, and `Buffer.ofElements` builds a buffer from such a list
by promoting each to the buffer's kind; the operations on buffers are operations on these lists.
-/

namespace ArrayMachine

inductive Buffer where
  | booleans (data : Array Bool)
  | integers (data : Array Int32)
  | reals (data : Array Single)
  | characters (data : Array UInt8)
deriving DecidableEq

namespace Buffer

def kind : Buffer → Kind
  | booleans _ => .boolean
  | integers _ => .integer
  | reals _ => .real
  | characters _ => .character

def length : Buffer → Nat
  | booleans data => data.size
  | integers data => data.size
  | reals data => data.size
  | characters data => data.size

def elements : Buffer → List Element
  | booleans data => data.toList.map .boolean
  | integers data => data.toList.map .integer
  | reals data => data.toList.map .real
  | characters data => data.toList.map .character

@[simp] theorem length_elements (b : Buffer) : b.elements.length = b.length := by
  cases b <;> simp [elements, length]

theorem kind_of_mem_elements {b : Buffer} {e : Element} (h : e ∈ b.elements) : e.kind = b.kind := by
  cases b <;> obtain ⟨_, _, rfl⟩ := List.mem_map.1 h <;> rfl

theorem isBasic_kind (b : Buffer) : b.kind.isBasic = true := by cases b <;> rfl

/-! ## Building buffers -/

/-- The fault of storing elements of a kind that has no storage. -/
def noStorage (kind : Kind) : Fault :=
  if kind = .null then .invalidOperandKind s!"{kind} arrays have no element storage"
  else Element.cannotPromote .null kind

/-- The buffer of the elements, each promoted to the kind. -/
def ofElements (kind : Kind) (elements : List Element) : Result Buffer :=
  match kind with
  | .boolean => (booleans ·.toArray) <$> elements.mapM Element.toBoolean
  | .integer => (integers ·.toArray) <$> elements.mapM Element.toInteger
  | .real => (reals ·.toArray) <$> elements.mapM Element.toReal
  | .character => (characters ·.toArray) <$> elements.mapM Element.toCharacter
  | _ => .error (noStorage kind)

/-- Reading each of the elements that values were made into gives the values back. -/
theorem mapM_map_eq {α : Type} (wrap : α → Element) (read : Element → Result α)
    (h : ∀ a, read (wrap a) = .ok a) (data : List α) : (data.map wrap).mapM read = .ok data := by
  induction data with
  | nil => rfl
  | cons a rest ih =>
    simp only [List.map_cons, List.mapM_cons, h, ih, bind, Except.bind, pure, Except.pure]

/-- The elements of a buffer make the same buffer again. -/
theorem ofElements_elements (b : Buffer) : ofElements b.kind b.elements = .ok b := by
  cases b with
  | booleans data =>
    exact congrArg ((booleans ·.toArray) <$> ·)
      (mapM_map_eq .boolean Element.toBoolean (fun _ => rfl) data.toList)
  | integers data =>
    exact congrArg ((integers ·.toArray) <$> ·)
      (mapM_map_eq .integer Element.toInteger (fun _ => rfl) data.toList)
  | reals data =>
    exact congrArg ((reals ·.toArray) <$> ·)
      (mapM_map_eq .real Element.toReal (fun _ => rfl) data.toList)
  | characters data =>
    exact congrArg ((characters ·.toArray) <$> ·)
      (mapM_map_eq .character Element.toCharacter (fun _ => rfl) data.toList)

/-- A buffer made for a kind has that kind. -/
theorem kind_of_ofElements {k : Kind} {es : List Element} {b : Buffer}
    (h : ofElements k es = .ok b) : b.kind = k := by
  cases k <;> simp only [ofElements] at h
  case boolean | integer | real | character =>
    obtain ⟨data, -, rfl⟩ := Result.map_eq_ok_iff.1 h
    rfl
  all_goals cases h

/-- `length` copies of one element, promoted to the kind. -/
def filled (kind : Kind) (length : Nat) (value : Element) : Result Buffer :=
  match kind with
  | .boolean => (booleans <| Array.replicate length ·) <$> value.toBoolean
  | .integer => (integers <| Array.replicate length ·) <$> value.toInteger
  | .real => (reals <| Array.replicate length ·) <$> value.toReal
  | .character => (characters <| Array.replicate length ·) <$> value.toCharacter
  | _ => do
    let _ ← value.promote kind
    .error (.invalidOperandKind s!"{kind} arrays have no element storage")

/-- `length` zeros of the kind. -/
def zeros (kind : Kind) (length : Nat) : Result Buffer := filled kind length .null

/-! ## Single elements -/

def get? (b : Buffer) (pos : Nat) : Option Element :=
  match b with
  | booleans data => data[pos]?.map .boolean
  | integers data => data[pos]?.map .integer
  | reals data => data[pos]?.map .real
  | characters data => data[pos]?.map .character

theorem get?_eq (b : Buffer) (pos : Nat) : b.get? pos = b.elements[pos]? := by
  cases b <;> simp [get?, elements]

/-- The element at a zero-based position. -/
def get (b : Buffer) (pos : Nat) : Result Element :=
  match b.get? pos with
  | some e => .ok e
  | none => .error (.outOfRange pos b.length)

/-- The buffer with the element at a position replaced by one promoted to its kind. -/
def set (b : Buffer) (pos : Nat) (value : Element) : Result Buffer :=
  if b.length ≤ pos then .error (.outOfRange pos b.length)
  else match b with
    | booleans data => (booleans <| data.setIfInBounds pos ·) <$> value.toBoolean
    | integers data => (integers <| data.setIfInBounds pos ·) <$> value.toInteger
    | reals data => (reals <| data.setIfInBounds pos ·) <$> value.toReal
    | characters data => (characters <| data.setIfInBounds pos ·) <$> value.toCharacter

/-- An overwritten buffer keeps its kind and length. -/
theorem kind_of_set {b c : Buffer} {pos : Nat} {e : Element} (h : b.set pos e = .ok c) :
    c.kind = b.kind ∧ c.length = b.length := by
  unfold set at h
  split at h
  · cases h
  · cases b
    all_goals
      obtain ⟨x, -, rfl⟩ := Result.map_eq_ok_iff.1 h
      exact ⟨rfl, Array.size_setIfInBounds⟩

/-! ## Equality of values -/

/-- Equality of values: reals compare as numbers. -/
def numEq (a b : Buffer) : Bool :=
  a.kind = b.kind && a.length = b.length &&
    (List.zipWith Element.numEq a.elements b.elements).all id

/-! ## Changing the kind -/

/-- All elements promoted to the kind. -/
def promote (b : Buffer) (kind : Kind) : Result Buffer :=
  if kind = b.kind then .ok b else ofElements kind b.elements

/-- All elements cast to the kind. -/
def cast (b : Buffer) (kind : Kind) : Result Buffer :=
  if kind = b.kind then .ok b
  else if !kind.isBasic then .error (noStorage kind)
  else do ofElements kind (← b.elements.mapM (Element.cast kind))

/-- The kind at which the elements of a literal meet. Null and identity take any kind the others
settle on; without others they must be all alike. -/
def commonKind? (elements : List Element) : Option Kind :=
  let kinds := elements.map Element.kind
  match kinds.filter (!·.isSentinel) with
  | first :: rest => rest.foldlM Kind.common? first
  | [] =>
    match kinds with
    | first :: rest => if rest.all (· = first) then some first else none
    | [] => none

end Buffer

end ArrayMachine
