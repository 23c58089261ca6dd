import FrameRpc.Frame.Header

/-!
# Reading front to back

A reader takes its bytes one after the other and never looks at how many there are. So what it
reads from some bytes it also reads when more bytes follow, and hands on the longer rest; and
what it refuses it also refuses when more bytes follow, unless it refuses because the bytes have
run out. A reader with this property is `FrontToBack`.

The property is closed under everything that readers are built from (`Extends.bind`,
`Extends.check`), so every reader of this library has it: of dynamic values (`readValue`), of
shapes (`Shape.read`), of headers (`Header.read`), and the two that only pass over bytes
(`skipValue`, `readListLength`).
-/

namespace FrameRpc

namespace MessagePack

variable {α β γ : Type}

/-- `long` is what a reader makes of some bytes with `more` behind them, if `short` is what it
    makes of the bytes alone. -/
def Extends (more : Bytes) (short long : Except ReadError (α × Bytes)) : Prop :=
  match short with
  | .ok (a, rest) => long = .ok (a, rest ++ more)
  | .error e => e.isTruncation = true ∨ long = .error e

/-- What is read, or refused for another reason than that the bytes have run out, stays so when
    more bytes follow. -/
def FrontToBack (read : Reader α) : Prop :=
  ∀ bs more, Extends more (read bs) (read (bs ++ more))

namespace Extends

variable {more : Bytes}

theorem ok (a : α) (rest : Bytes) : Extends more (.ok (a, rest)) (.ok (a, rest ++ more)) := rfl

theorem error (e : ReadError) : Extends (α := α) more (.error e) (.error e) := .inr rfl

/-- First one reader, then another, as a rule on what the first one has left. -/
theorem bind {short long : Except ReadError (α × Bytes)}
    {next next' : α × Bytes → Except ReadError (β × Bytes)} (h : Extends more short long)
    (hnext : ∀ a rest, Extends more (next (a, rest)) (next' (a, rest ++ more))) :
    Extends more (short >>= next) (long >>= next') := by
  rcases short with e | ⟨a, rest⟩
  · rcases h with h | rfl
    · exact .inl h
    · exact .inr rfl
  · obtain rfl : long = _ := h
    exact hnext a rest

/-- First a check that does not look at the bytes, then a reader. -/
theorem check {c : Except ReadError γ} {short long : γ → Except ReadError (α × Bytes)}
    (h : ∀ x, Extends more (short x) (long x)) : Extends more (c >>= short) (c >>= long) := by
  rcases c with e | x
  · exact error e
  · exact h x

end Extends

/-- Where a reader does not ask for more, more makes no difference. -/
theorem FrontToBack.read_append {read : Reader α} (h : FrontToBack read) {bs : Bytes}
    (hdone : ∀ e, read bs = .error e → e.isTruncation = false) (more : Bytes) :
    read (bs ++ more) = (read bs).map fun x => (x.1, x.2 ++ more) := by
  have hext := h bs more
  cases hr : read bs with
  | ok x =>
    rw [hr] at hext
    exact hext
  | error e =>
    rw [hr] at hext
    refine hext.resolve_left ?_
    rw [hdone e hr]
    exact Bool.false_ne_true

/-! ## Tokens -/

theorem frontToBack_takeMarker : FrontToBack takeMarker := by
  intro bs more
  cases bs with
  | nil => exact .inl rfl
  | cons b rest => exact .ok (Marker.ofByte b) rest

theorem frontToBack_takeBytes {short : ReadError} (hs : short.isTruncation = true) (n : Nat) :
    FrontToBack (takeBytes short n) := by
  intro bs more
  simp only [takeBytes]
  by_cases h : (bs.take n).length = n
  · have hn : n ≤ bs.length := by rw [← h, List.length_take]; exact Nat.min_le_right _ _
    rw [if_pos h, List.take_append_of_le_length hn, if_pos h, List.drop_append_of_le_length hn]
    exact .ok (bs.take n) (bs.drop n)
  · rw [if_neg h]
    exact .inl hs

theorem frontToBack_takeField (w : Width) : FrontToBack (takeField w) := fun bs more =>
  (frontToBack_takeBytes rfl w.octets bs more).bind fun _ _ => .ok _ _

theorem frontToBack_takeBody (n : Nat) : FrontToBack (takeBody n) := frontToBack_takeBytes rfl n

theorem frontToBack_token (m : Marker) : FrontToBack m.token := by
  intro bs more
  cases m with
  | unsigned w | signed w | text w | bytes w | list w | map w | extension w =>
    exact (frontToBack_takeField w bs more).bind fun _ _ => .ok _ _
  | float32 => exact (frontToBack_takeField .four bs more).bind fun _ _ => .ok _ _
  | float64 => exact (frontToBack_takeField .eight bs more).bind fun _ _ => .ok _ _
  | reserved => exact .error _
  | nil | bool _ | fixUnsigned _ | fixNegative _ | fixText _ | fixList _ | fixMap _
  | fixExtension _ => exact .ok _ _

theorem frontToBack_readToken : FrontToBack readToken := fun bs more =>
  (frontToBack_takeMarker bs more).bind fun m rest => frontToBack_token m rest more

theorem frontToBack_item (t : Token) (budget : Nat) : FrontToBack (t.item budget) := by
  intro bs more
  cases t with
  | text n =>
    refine (frontToBack_takeBody n bs more).bind fun body rest => ?_
    dsimp only
    cases Utf8.decode body with
    | ok s => exact .ok _ _
    | error why => exact .ok _ _
  | bytes n => exact (frontToBack_takeBody n bs more).bind fun _ _ => .ok _ _
  | list _ | map _ | extension _ => exact .check fun _ => .ok _ _
  | nil | bool _ | unsigned _ | signed _ | float _ => exact .ok _ _

theorem frontToBack_readManyOnto {read : Reader α} (h : FrontToBack read) (done : List α)
    (n : Nat) : FrontToBack (readManyOnto read done n) := by
  induction n generalizing done with
  | zero => exact fun bs more => .ok _ bs
  | succ n ih => exact fun bs more => (h bs more).bind fun a rest => ih (a :: done) rest more

theorem frontToBack_readMany {read : Reader α} (h : FrontToBack read) (n : Nat) :
    FrontToBack (readMany read n) := frontToBack_readManyOnto h [] n

/-! ## Dynamic values -/

theorem frontToBack_readName (first : Bool) (budget : Nat) :
    FrontToBack (readName first budget) := by
  intro bs more
  refine (frontToBack_readToken bs more).bind fun t rest => ?_
  refine (frontToBack_item t budget rest more).bind fun item rest => ?_
  -- What is made of the item does not depend on the bytes behind it.
  cases first with
  | true => cases item <;> first | exact .ok _ _ | exact .error _
  | false =>
    dsimp only
    rw [if_neg Bool.false_ne_true, if_neg Bool.false_ne_true]
    cases item.asText with
    | ok s => exact .ok _ _
    | error m => exact .error _

theorem frontToBack_readEntries (budget : Nat) {read : Reader Value} (h : FrontToBack read)
    (first : Bool) (fields : Fields) (n : Nat) :
    FrontToBack (readEntries budget read first fields n) := by
  induction n generalizing first fields with
  | zero => exact fun bs more => .ok _ bs
  | succ n ih =>
    intro bs more
    refine (frontToBack_readName first budget bs more).bind fun name rest => ?_
    exact (h rest more).bind fun v rest => ih false (fields.insert name v) rest more

theorem frontToBack_readValueWith (budget : Nat) {inner : Reader Value} (h : FrontToBack inner) :
    FrontToBack (readValueWith budget inner) := by
  intro bs more
  refine (frontToBack_readToken bs more).bind fun t rest => ?_
  cases t with
  | list n =>
    refine .check fun _ => ?_
    exact (frontToBack_readMany h n rest more).bind fun _ _ => .ok _ _
  | map n =>
    refine .check fun budget => ?_
    exact (frontToBack_readEntries budget h true [] n rest more).bind fun _ _ => .ok _ _
  | nil | bool _ | unsigned _ | signed _ | float _ | text _ | bytes _ | extension _ =>
    refine (frontToBack_item _ budget rest more).bind fun item rest => ?_
    exact .check fun _ => .ok _ _

theorem frontToBack_readValue (budget : Nat) : FrontToBack (readValue budget) := by
  induction budget with
  | zero => exact frontToBack_readValueWith 0 fun _ _ => .error _
  | succ budget ih => exact frontToBack_readValueWith (budget + 1) ih

theorem frontToBack_skipValueWith (budget : Nat) {inner : Reader Unit} (h : FrontToBack inner) :
    FrontToBack (skipValueWith budget inner) := by
  intro bs more
  refine (frontToBack_readToken bs more).bind fun t rest => ?_
  cases t with
  | text n | bytes n => exact (frontToBack_takeBody n rest more).bind fun _ _ => .ok _ _
  | list n =>
    refine .check fun _ => ?_
    exact (frontToBack_readMany h n rest more).bind fun _ _ => .ok _ _
  | map n =>
    refine .check fun _ => ?_
    exact (frontToBack_readMany h (2 * n) rest more).bind fun _ _ => .ok _ _
  | extension n =>
    refine .check fun _ => ?_
    refine (frontToBack_takeBytes rfl 1 rest more).bind fun _ rest => ?_
    exact (frontToBack_takeBody n rest more).bind fun _ _ => .ok _ _
  | nil | bool _ | unsigned _ | signed _ | float _ => exact .ok _ _

theorem frontToBack_skipValue (budget : Nat) : FrontToBack (skipValue budget) := by
  induction budget with
  | zero => exact frontToBack_skipValueWith 0 fun _ _ => .error _
  | succ budget ih => exact frontToBack_skipValueWith (budget + 1) ih

theorem frontToBack_readListLength : FrontToBack readListLength := by
  intro bs more
  refine (frontToBack_takeMarker bs more).bind fun m rest => ?_
  cases m with
  | fixList n => exact .ok _ _
  | list w => exact frontToBack_takeField w rest more
  | _ => exact .error _

end MessagePack

open MessagePack

/-! ## Shapes -/

theorem frontToBack_readScalar (s : Scalar) (budget : Nat) : FrontToBack (s.read budget) := by
  intro bs more
  refine (frontToBack_takeMarker bs more).bind fun m rest => ?_
  dsimp only
  split
  · exact .error _
  · refine (frontToBack_token m rest more).bind fun t rest => ?_
    refine (frontToBack_item t budget rest more).bind fun item rest => ?_
    dsimp only
    cases s.accept item with
    | ok a => exact .ok _ _
    | error m => exact .error _

theorem frontToBack_readOptional (s : Scalar) (budget : Nat) :
    FrontToBack (readOptional s budget) := by
  intro bs more
  refine (frontToBack_takeMarker bs more).bind fun m rest => ?_
  cases m with
  | nil => exact .ok _ _
  | _ => exact (frontToBack_readScalar s budget bs more).bind fun _ _ => .ok _ _

theorem frontToBack_readSlot (k : Slot) (budget : Nat) : FrontToBack (k.read budget) := by
  cases k with
  | required s => exact frontToBack_readScalar s budget
  | defaulted s _ => exact frontToBack_readScalar s budget
  | optional s => exact frontToBack_readOptional s budget

theorem frontToBack_readRow (r : RecordType) (budget : Nat) (fields : List RecordField)
    (index left : Nat) : FrontToBack (readRow r budget fields index left) := by
  intro bs more
  induction fields generalizing index left bs with
  | nil => exact .ok _ _
  | cons f fs ih =>
    cases left with
    | zero =>
      -- No item is left, so the field is not read.
      simp only [readRow]
      cases f.slot.absent with
      | some v => exact (ih (index + 1) 0 bs).bind fun _ _ => .ok _ _
      | none => exact .error _
    | succ left =>
      refine (frontToBack_readSlot f.slot budget bs more).bind fun _ rest => ?_
      exact (ih (index + 1) left rest).bind fun _ _ => .ok _ _

theorem frontToBack_readKey (fields : List RecordField) (budget : Nat) :
    FrontToBack (readKey fields budget) := by
  intro bs more
  refine (frontToBack_readToken bs more).bind fun t rest => ?_
  refine (frontToBack_item t budget rest more).bind fun item rest => ?_
  dsimp only
  cases fieldOfKey fields item with
  | ok i => exact .ok _ _
  | error m => exact .error _

theorem frontToBack_readDraft (fields : List RecordField) (budget : Nat) (d : Draft fields)
    (n : Nat) : FrontToBack (readDraft fields budget d n) := by
  intro bs more
  induction n generalizing d bs with
  | zero => exact .ok _ _
  | succ n ih =>
    refine (frontToBack_readKey fields budget bs more).bind fun key rest => ?_
    cases key with
    | none => exact (frontToBack_skipValue budget rest more).bind fun _ rest => ih d rest
    | some i =>
      dsimp only
      split
      · exact .error _
      · refine (frontToBack_readSlot _ budget rest more).bind fun v rest => ?_
        exact ih (d.set i v) rest

theorem frontToBack_readRecord (r : RecordType) (budget : Nat) : FrontToBack (r.read budget) := by
  intro bs more
  refine (frontToBack_readToken bs more).bind fun t rest => ?_
  cases t with
  | list n =>
    refine .check fun budget => ?_
    refine (frontToBack_readRow r budget r.fields 0 n rest more).bind fun row rest => ?_
    exact .check fun _ => .ok _ _
  | map n =>
    refine .check fun budget => ?_
    refine (frontToBack_readDraft r.fields budget _ n rest more).bind fun d rest => ?_
    dsimp only
    cases d.complete with
    | ok row => exact .ok _ _
    | error m => exact .error _
  | bytes n =>
    refine (frontToBack_takeBody n rest more).bind fun body rest => ?_
    dsimp only
    cases Row.ofItems r r.fields 0 (body.map fun b => .unsigned b.toUInt64) with
    | ok row => exact .check fun _ => .ok _ _
    | error m => exact .error _
  | nil | bool _ | unsigned _ | signed _ | float _ | text _ | extension _ =>
    exact (frontToBack_item _ budget rest more).bind fun _ _ => .error _

theorem frontToBack_readOctets (budget : Nat) : FrontToBack (readOctets budget) := by
  intro bs more
  refine (frontToBack_readToken bs more).bind fun t rest => ?_
  cases t with
  | list n =>
    exact .check fun budget => frontToBack_readMany (frontToBack_readScalar .u8 budget) n rest more
  | bytes n => exact frontToBack_takeBody n rest more
  | nil | bool _ | unsigned _ | signed _ | float _ | text _ | map _ | extension _ =>
    exact (frontToBack_item _ budget rest more).bind fun _ _ => .error _

theorem frontToBack_readShape (s : Shape) : FrontToBack s.read := by
  cases s with
  | dynamic => exact frontToBack_readValue maxDepth
  | scalar s => exact frontToBack_readScalar s maxDepth
  | optional s => exact frontToBack_readOptional s maxDepth
  | octets => exact frontToBack_readOctets maxDepth
  | record r => exact frontToBack_readRecord r maxDepth

theorem frontToBack_readHeader : FrontToBack Header.read := fun bs more =>
  (frontToBack_readRecord Header.type maxDepth bs more).bind fun _ _ => .ok _ _

end FrameRpc
