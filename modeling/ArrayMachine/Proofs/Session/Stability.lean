import ArrayMachine.Proofs.Session.Soundness
import Mathlib.Logic.Relation

/-!
# Views outlive what is done to their roots

A program works on a session and holds values beside it (`Machine`): what the constructors give it
and what the operations of the session answer. Whatever it does, in any order, the type behind a
handle never changes. So the root of a view, as long as it is there, is an array stored under the
shape it had when the view was made, and a view that is not of a vector by itself can be copied, with
the type it has, if a word counts the elements of the root.

* `Makes.valid`: the values that a program gets are valid.
* `Step.sound`: one operation keeps the machine sound and leads to a later stack.
* `views_outlive_changes`: any run.
-/

namespace ArrayMachine

/-- A session, and the values that a program holds beside it. -/
structure Machine where
  session : Session
  values : List Value

namespace Machine

/-! ## Programs -/

/-- Values made without a session. -/
inductive Constructed : Value → Prop where
  | element (e : Element) : Constructed (Value.ofElement e)
  | sentinel (shape : Shape) : Constructed (Value.sentinel shape)
  | vector (buffer : Buffer) : Constructed (Value.vector buffer)
  | string (text : List UInt8) : Constructed (Value.string text)
  | array {shape : Shape} {buffer : Buffer} {v : Value} :
    Value.ofBuffer shape buffer = .ok v → Constructed v
  | interval (interval : Interval) : Constructed (Value.ofInterval interval)
  | literal {elements : List Element} {v : Value} :
    Value.literal elements = .ok v → Constructed v
  | matrixLiteral {rows : Value.Rows} {v : Value} :
    Value.matrixLiteral rows = .ok v → Constructed v
  | input : Constructed Value.input
  | output : Constructed Value.output

/-- The base of an indexing is a variable, or a value that the program holds. -/
def Holds (m : Machine) : IndexOperand → Prop
  | .anchored _ => True
  | .value v => v ∈ m.values

/-- The values that a program can come by: made without a session, held by a variable, or answered
by an operation on values it has. -/
inductive Makes (m : Machine) : Value → Prop where
  | constructed {v : Value} : Constructed v → Makes m v
  | get {handle : Handle} {v : Value} : m.session.scope.get handle = .ok v → Makes m v
  | index {operand : IndexOperand} {indices : List IndexOperand} {v : Value} :
    m.Holds operand → m.session.scope.index operand indices = .ok v → Makes m v
  | copy {v w : Value} : v ∈ m.values → m.session.copy v = .ok w → Makes m w
  | convert {target : ValueType} {v w : Value} {mode : Mode} :
    v ∈ m.values → m.session.convert target v mode = .ok w → Makes m w
  | unary {op : UnaryOp} {v w : Value} :
    v ∈ m.values → m.session.unary op v = .ok w → Makes m w
  | binary {op : BinaryOp} {a b w : Value} :
    a ∈ m.values → b ∈ m.values → m.session.binary op a b = .ok w → Makes m w
  | tuple {fields : List (Option String × Value)} {w : Value} :
    (∀ field ∈ fields, field.2 ∈ m.values) → m.session.tuple fields = .ok w → Makes m w
  | field {v w : Value} {pos : Nat} : v ∈ m.values → v.field pos = .ok w → Makes m w
  | length {v w : Value} : v ∈ m.values → m.session.length v = .ok w → Makes m w
  | rows {v w : Value} : v ∈ m.values → m.session.rows v = .ok w → Makes m w
  | columns {v w : Value} : v ∈ m.values → m.session.columns v = .ok w → Makes m w
  | reverse {v w : Value} : v ∈ m.values → m.session.reverse v = .ok w → Makes m w

/-- What a program does next. It allocates values of regular types only, and restores any mark. -/
inductive Step : Machine → Machine → Prop where
  | make {m : Machine} {v : Value} : m.Makes v → Step m ⟨m.session, v :: m.values⟩
  | allocate {m : Machine} {v : Value} : v ∈ m.values → v.type.Regular →
    Step m ⟨(m.session.allocate v).2, m.values⟩
  | allocateType {m : Machine} (type : ValueType) :
    Step m ⟨(m.session.allocateType type).2, m.values⟩
  | restore {m : Machine} {mark : Nat} {session : Session} :
    m.session.restore mark = .ok session → Step m ⟨session, m.values⟩
  | assign {m : Machine} {v : Value} (handle : Handle) : v ∈ m.values →
    Step m ⟨(m.session.assign handle v).2, m.values⟩
  | read {m : Machine} {stream v : Value} {kind : Kind} {session : Session} :
    m.session.read stream kind = .ok (v, session) → Step m ⟨session, v :: m.values⟩
  | print {m : Machine} (stream v : Value) : Step m ⟨(m.session.print stream v).2, m.values⟩

/-- The stack is sound, and what the program holds is valid beside it. -/
structure Sound (m : Machine) : Prop where
  scope : m.session.scope.Sound
  values : ∀ v ∈ m.values, m.session.scope.Valid v

variable {m n : Machine} {v w : Value}

/-! ## What a program comes by -/

theorem Constructed.coherent (h : Constructed v) : v.Coherent := by
  cases h with
  | element e => exact (Value.fresh_ofElement e).coherent
  | sentinel shape => exact .bare _
  | vector buffer => exact (Value.fresh_vector buffer).coherent
  | string text => exact (Value.fresh_string text).coherent
  | array h => exact (Value.fresh_ofBuffer h).coherent
  | interval interval => exact .interval interval
  | literal h => exact (Value.fresh_literal h).coherent
  | matrixLiteral h => exact (Value.fresh_matrixLiteral h).coherent
  | input => exact .bare _
  | output => exact .bare _

/-- An operation on a copy of a value that the program holds. -/
theorem Sound.exists_copy (hm : m.Sound) (hv : v ∈ m.values) {f : Value → Result Value}
    (h : (m.session.copy v >>= f) = .ok w) : ∃ x, x.Coherent ∧ f x = .ok w := by
  obtain ⟨x, hx, h⟩ := Result.bind_eq_ok_iff.mp h
  exact ⟨x, (hm.values v hv).coherent_copy hx, h⟩

theorem Sound.coherent_tuple (hm : m.Sound) {fields : List (Option String × Value)}
    (hfields : ∀ field ∈ fields, field.2 ∈ m.values) (h : m.session.tuple fields = .ok w) :
    w.Coherent := by
  obtain ⟨copies, hcopies, h⟩ := Result.bind_eq_ok_iff.mp h
  refine Value.invariant_coherent.compose (fun field hfield => ?_) h
  obtain ⟨⟨name, x⟩, hx, hcopy⟩ := Result.exists_of_mem_mapM hcopies hfield
  obtain ⟨y, hy, hfield⟩ := Result.bind_eq_ok_iff.mp hcopy
  obtain rfl := Except.ok.inj hfield
  exact (hm.values x (hfields _ hx)).coherent_copy hy

theorem Sound.valid_field (hm : m.Sound) (hv : v ∈ m.values) {pos : Nat}
    (h : v.field pos = .ok w) : m.session.scope.Valid w := by
  unfold Value.field at h
  split at h
  · cases h
  · rename_i fields hfields
    split at h
    · rename_i field hfield
      obtain rfl := Except.ok.inj h
      cases hm.values v hv with
      | coherent hcoherent =>
        exact .coherent (hcoherent.fields hfields field (List.mem_of_getElem? hfield))
      | view _ _ _ => cases hfields
    · cases h

/-- **A program only comes by valid values.** -/
theorem Makes.valid (hm : m.Sound) (h : m.Makes v) : m.session.scope.Valid v := by
  cases h with
  | constructed h => exact .coherent h.coherent
  | get h => exact hm.scope.valid h
  | @index operand indices _ hholds h =>
    cases operand with
    | anchored handle =>
      obtain ⟨base, hbase, -⟩ := Result.bind_eq_ok_iff.mp h
      exact Scope.Valid.index hm.scope hbase (hm.scope.valid hbase) h
    | value base => exact Scope.Valid.index hm.scope rfl (hm.values base hholds) h
  | copy hv h => exact .coherent ((hm.values _ hv).coherent_copy h)
  | convert hv h =>
    obtain ⟨x, hx, h⟩ := hm.exists_copy hv h
    exact .coherent (Value.Coherent.convert _ hx h)
  | unary hv h =>
    obtain ⟨x, -, h⟩ := hm.exists_copy hv h
    exact .coherent (Value.fresh_unary h).coherent
  | binary ha hb h =>
    obtain ⟨x, hx, h⟩ := hm.exists_copy ha h
    obtain ⟨y, hy, h⟩ := hm.exists_copy hb h
    exact .coherent (Value.invariant_coherent.binary hx hy h)
  | tuple hfields h => exact .coherent (hm.coherent_tuple hfields h)
  | field hv h => exact hm.valid_field hv h
  | length hv h =>
    obtain ⟨x, -, h⟩ := hm.exists_copy hv h
    exact .coherent (Value.fresh_lengthScalar h).coherent
  | rows hv h =>
    obtain ⟨x, -, h⟩ := hm.exists_copy hv h
    exact .coherent (Value.fresh_matrixExtent h).coherent
  | columns hv h =>
    obtain ⟨x, -, h⟩ := hm.exists_copy hv h
    exact .coherent (Value.fresh_matrixExtent h).coherent
  | reverse hv h =>
    obtain ⟨x, hx, h⟩ := hm.exists_copy hv h
    exact .coherent (Value.invariant_coherent.reverse hx h)

/-- What is read is a scalar, and the stack stays as it is. -/
theorem read_eq_ok {s t : Session} {stream : Value} {kind : Kind}
    (h : s.read stream kind = .ok (v, t)) : v.Coherent ∧ t.scope = s.scope := by
  unfold Session.read at h
  split at h
  · obtain ⟨⟨x, reader⟩, hread, h⟩ := Result.bind_eq_ok_iff.mp h
    obtain ⟨rfl, rfl⟩ := Prod.mk.inj (Except.ok.inj h)
    refine ⟨?_, rfl⟩
    unfold Session.readKind at hread
    split at hread
    · obtain ⟨rfl, -⟩ := Prod.mk.inj (Except.ok.inj hread)
      exact (Value.fresh_ofElement (.integer _)).coherent
    · obtain ⟨rfl, -⟩ := Prod.mk.inj (Except.ok.inj hread)
      exact (Value.fresh_ofElement (.real _)).coherent
    · obtain ⟨rfl, -⟩ := Prod.mk.inj (Except.ok.inj hread)
      exact (Value.fresh_ofElement (.boolean _)).coherent
    · obtain ⟨rfl, -⟩ := Prod.mk.inj (Except.ok.inj hread)
      exact (Value.fresh_ofElement (.character _)).coherent
    · cases hread
  · cases h

theorem scope_print (s : Session) (stream v : Value) : (s.print stream v).2.scope = s.scope := by
  unfold Session.print
  split <;> rfl

/-! ## Runs -/

theorem sound_start (settings : Settings) (source : Source) (sink : Sink) :
    Sound ⟨Session.start settings source sink, []⟩ :=
  ⟨Scope.sound_empty _, fun _ hv => nomatch hv⟩

/-- What the program holds is still valid beside a later stack. -/
theorem Sound.leadsTo (hm : m.Sound) {s : Session} (h : m.session.scope.LeadsTo s.scope) :
    Sound ⟨s, m.values⟩ :=
  ⟨h.sound, fun v hv => (hm.values v hv).evolves h.later⟩

/-- **One operation** keeps the machine sound and leads to a later stack. -/
theorem Step.sound (h : Step m n) (hm : m.Sound) :
    n.Sound ∧ m.session.scope.Evolves n.session.scope := by
  have hleads : ∀ {s : Session}, m.session.scope.LeadsTo s.scope →
      Sound ⟨s, m.values⟩ ∧ m.session.scope.Evolves s.scope := fun h => ⟨hm.leadsTo h, h.later⟩
  cases h with
  | make hv =>
    have hvalid := hv.valid hm
    exact ⟨⟨hm.scope, List.forall_mem_cons.mpr ⟨hvalid, hm.values⟩⟩, .refl _⟩
  | @allocate v hv hregular =>
    refine hleads ⟨hm.scope.push (fun x hx => ?_) (fun x hx => ?_), Scope.evolves_push _ _⟩
    · obtain rfl := Item.value.inj hx
      exact hm.values v hv
    · obtain rfl := Item.value.inj hx
      exact hregular
  | allocateType type =>
    exact hleads ⟨hm.scope.push (fun _ hx => nomatch hx) (fun _ hx => nomatch hx),
      Scope.evolves_push _ _⟩
  | restore h =>
    obtain ⟨⟨items, t⟩, ht, h⟩ := Result.bind_eq_ok_iff.mp h
    obtain rfl := Except.ok.inj h
    exact hleads ⟨hm.scope.restore ht, Scope.evolves_restore ht⟩
  | assign handle hv => exact hleads (Session.leadsTo_assign hm.scope (hm.values _ hv) handle)
  | @read stream v kind s h =>
    obtain ⟨hcoherent, hscope⟩ := read_eq_ok h
    obtain ⟨hsound, hlater⟩ := hleads (s := s) (hscope ▸ hm.scope.leadsTo)
    exact ⟨⟨hsound.scope, List.forall_mem_cons.mpr ⟨.coherent hcoherent, hsound.values⟩⟩, hlater⟩
  | print stream v => exact hleads (scope_print m.session stream v ▸ hm.scope.leadsTo)

/-- **Any run** does. -/
theorem sound_of_run (h : Relation.ReflTransGen Step m n) (hm : m.Sound) :
    n.Sound ∧ m.session.scope.Evolves n.session.scope := by
  induction h with
  | refl => exact ⟨hm, .refl _⟩
  | tail _ hstep ih =>
    obtain ⟨hsound, hlater⟩ := hstep.sound ih.1
    exact ⟨hsound, ih.2.trans hlater⟩

/-- A view that indexing has given sees an array on the stack. -/
theorem Sound.exists_sees (hm : m.Sound) {operand : IndexOperand} {indices : List IndexOperand}
    (hholds : m.Holds operand) (h : m.session.scope.index operand indices = .ok v) {view : View}
    (hview : v.view? = some view) : ∃ rs, m.session.scope.Sees v view rs := by
  obtain ⟨base, hbase, -⟩ := Result.bind_eq_ok_iff.mp h
  have hvalid : m.session.scope.Valid base := by
    cases operand with
    | anchored handle => exact hm.scope.valid hbase
    | value x =>
      obtain rfl := Except.ok.inj hbase
      exact hm.values _ hholds
  rcases Scope.index_cases hbase hvalid h with hcoherent | ⟨view', rs, hsees⟩
  · rw [hcoherent.view?_eq_none] at hview
    cases hview
  · obtain rfl : view' = view := by
      rw [hsees.eq] at hview
      exact Option.some.inj hview
    exact ⟨rs, hsees⟩

/-- **Views outlive what is done to their roots.** Along any run of a program, the variable behind a
handle has the same type wherever it is there. And take any view that indexing gives on the way, and
any later state in which its root is still there: the root is an array stored under the shape it had
when the view was made; and unless the view is of a vector by itself, all its positions are the
root's and it can be copied, with the type it has, if a word counts the elements of the root. -/
theorem views_outlive_changes {settings : Settings} {source : Source} {sink : Sink}
    (hstart : Relation.ReflTransGen Step ⟨Session.start settings source sink, []⟩ m)
    (hrun : Relation.ReflTransGen Step m n) :
    (∀ {handle : Handle} {v w : Value}, m.session.scope.get handle = .ok v →
      n.session.scope.get handle = .ok w → w.type = v.type) ∧
    ∀ {operand : IndexOperand} {indices : List IndexOperand} {v : Value} {view : View}
      {later : Value}, m.Holds operand → m.session.scope.index operand indices = .ok v →
      v.view? = some view → n.session.scope.get view.root = .ok later →
      ∃ root rs, m.session.scope.get view.root = .ok root ∧ root.StoredAs rs ∧
        later.StoredAs rs ∧
        (view.selection ≠ .bySelf → root.Countable →
          (∃ count, v.length = .ok count ∧ ∀ pos, pos < count →
            ∃ p, view.selection.flatPosition later pos = .ok p ∧ p < rs.size) ∧
          ∃ copy, n.session.scope.materialize v = .ok copy ∧ copy.type = v.type) := by
  have hm := (sound_of_run hstart (sound_start settings source sink)).1
  have hlater := (sound_of_run hrun hm).2
  constructor
  · intro handle v w hv hw
    obtain ⟨v', hv', hkeeps⟩ := hlater.kept (hm.scope.stamp_lt hv) hw
    obtain rfl := Except.ok.inj (hv.symm.trans hv')
    exact hkeeps.type
  · intro operand indices v view later hholds hindex hview hroot
    obtain ⟨rs, hsees⟩ := hm.exists_sees hholds hindex hview
    obtain ⟨root, hget, hstored⟩ := hsees.root
    have hkept := hsees.storedAs_later hm.scope hlater hroot
    refine ⟨root, rs, hget, hstored, hkept, fun hself hcount => ?_⟩
    have hwords : rs.Countable := by
      obtain ⟨b, -, rfl⟩ := hstored
      exact hcount.shape rfl
    exact ⟨hsees.positions hkept hwords hself, hsees.exists_copy hroot hkept hwords hself⟩

/-- Two elements of a vector, copied after the vector was assigned another. -/
theorem views_outlive_changes_vector :
    let s := Session.start Settings.default [] Sink.empty
    let v := Value.vector (.integers #[10, 20, 30])
    let w := Value.vector (.integers #[7, 8, 9])
    let m : Machine := ⟨(s.allocate v).2, [w, v]⟩
    let n : Machine := ⟨(m.session.assign ⟨0, 0⟩ w).2, [w, v]⟩
    let pair := Value.ofView (Shape.vector .integer 2) ⟨⟨0, 0⟩, .vector (.many #[0, 2])⟩
    m.session.scope.index (.anchored ⟨0, 0⟩) [.value (Value.vector (.integers #[1, 3]))] = .ok pair ∧
    v.Countable ∧ ∃ copy, n.session.scope.materialize pair = .ok copy ∧ copy.type = pair.type := by
  intro s v w m n pair
  have hregular : v.type.Regular := .array ⟨nofun, nofun⟩
  have hstart : Relation.ReflTransGen Step ⟨s, []⟩ m :=
    ((Relation.ReflTransGen.refl.tail (.make (.constructed (.vector _)))).tail
      (.make (.constructed (.vector _)))).tail (.allocate (List.mem_cons_of_mem _ List.mem_cons_self)
        hregular)
  have hrun : Relation.ReflTransGen Step m n := .tail .refl (.assign _ List.mem_cons_self)
  have hindex : m.session.scope.index (.anchored ⟨0, 0⟩)
      [.value (Value.vector (.integers #[1, 3]))] = .ok pair := rfl
  have hholds : m.Holds (.anchored ⟨0, 0⟩) := trivial
  have hcount : v.Countable := ValueType.Countable.array (by decide)
  obtain ⟨root, rs, hroot, -, -, hcopy⟩ :=
    (views_outlive_changes hstart hrun).2 hholds hindex rfl rfl
  obtain rfl : v = root := Except.ok.inj hroot
  exact ⟨hindex, hcount, (hcopy nofun hcount).2⟩

/-- Rows and columns whose product comes around to zero, over no elements. A view of the first
element, as soon as it is made, cannot be copied. -/
theorem view_not_copied :
    let s := Session.start Settings.default [] Sink.empty
    let wide := Value.stored (Shape.matrix .integer 4294967296 4294967296) (.integers #[])
    let m : Machine := ⟨(s.allocate wide).2, [wide]⟩
    let corner := Value.ofView (Shape.scalar .integer) ⟨⟨0, 0⟩, .matrix (.single 0) (.single 0)⟩
    Relation.ReflTransGen Step ⟨s, []⟩ m ∧
      m.session.scope.index (.anchored ⟨0, 0⟩)
        [.value (Value.integer 1), .value (Value.integer 1)] = .ok corner ∧
      m.session.scope.materialize corner = .error (.indexOutOfRange 1 0) := by
  intro s wide m corner
  have hwide : Value.matrix (.integers #[]) 4294967296 4294967296 = .ok wide := rfl
  have hregular : wide.type.Regular := .array ⟨nofun, nofun⟩
  refine ⟨(Relation.ReflTransGen.refl.tail (.make (.constructed (.array hwide)))).tail
    (.allocate List.mem_cons_self hregular), rfl, ?_⟩
  rw [Scope.materialize_ofView rfl]
  exact Selection.gather_uncounted

end Machine

end ArrayMachine
