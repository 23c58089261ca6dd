import FrameRpc.Proofs.Extent

/-!
# Whole values suffice

A reader that stands in front of a whole value does not run out of bytes. It reads the value, or it
refuses the value for a reason of its own (`Suffices`). So a stream that waits until a value is
there, and reads only then, does not have to wait again.

The readers of this library have the property because they never read behind the value: where
`n + 1` values stand, they leave `n` (`Content`). Inside a value the bytes begin with the rest of a
token, its body, and the values that it nests follow (`Stocked`). The same holds up to a reserved
marker, so a reader that comes to one refuses it, and does not ask for what is behind it
(`Content.refuses`).
-/

namespace FrameRpc

namespace MessagePack

/-! ## Bytes that last -/

/-- Only the reserved marker has no layout. -/
theorem Marker.eq_reserved {m : Marker} (h : m.layout = none) : m = .reserved := by
  cases m with
  | reserved => rfl
  | _ => nomatch h

/-- At the front of the bytes `n` values stand, or at least nothing is cut off before a marker that
    begins no value. -/
inductive Legible : Nat → Bytes → Prop where
  | done (tail : Bytes) : Legible 0 tail
  | reserved {b : UInt8} (hb : (Marker.ofByte b).layout = none) (n : Nat) (tail : Bytes) :
    Legible (n + 1) (b :: tail)
  /-- A marker and what it announces, and the values left over with those that it nests. -/
  | marker {b : UInt8} {rest : Bytes} {layout : Layout} {a : Announced} {n : Nat}
    (hlayout : (Marker.ofByte b).layout = some layout) (hannounced : layout.announced rest = some a)
    (hfits : a.width + a.body ≤ rest.length)
    (hrest : Legible (n + a.nested) (rest.drop (a.width + a.body))) : Legible (n + 1) (b :: rest)

/-- What can be read behind values can be read with them. -/
theorem Partway.legible {m n : Nat} {u bs : Bytes} (hu : Partway n m u) (h : Legible n bs) :
    Legible m (u ++ bs) := by
  induction hu with
  | here => exact h
  | marker hlayout hannounced hfits _ ih =>
    rw [List.cons_append]
    refine .marker hlayout (Layout.announced_append hannounced bs) ?_ ?_
    · rw [List.length_append]
      omega
    · rwa [List.drop_append_of_le_length hfits]

/-- `bs` begins with `body` octets, and behind them `n` values can be read. -/
def Stocked (body n : Nat) (bs : Bytes) : Prop := body ≤ bs.length ∧ Legible n (bs.drop body)

theorem stocked_of_values {n : Nat} {w : Bytes} (h : Values n w) (tail : Bytes) :
    Stocked 0 n (w ++ tail) :=
  ⟨Nat.zero_le _, (values_iff_partway.1 h).legible (.done tail)⟩

theorem stocked_of_partway {m n : Nat} {u : Bytes} {b : UInt8} (h : Partway (n + 1) m u)
    (hb : (Marker.ofByte b).layout = none) (tail : Bytes) : Stocked 0 m (u ++ b :: tail) :=
  ⟨Nat.zero_le _, h.legible (.reserved hb n tail)⟩

/-- Octets that have been taken are no longer in front. -/
theorem Stocked.drop {taken body n : Nat} {bs : Bytes} (h : Stocked (taken + body) n bs) :
    Stocked body n (bs.drop taken) := by
  obtain ⟨hle, hlegible⟩ := h
  refine ⟨?_, ?_⟩
  · rw [List.length_drop]
    omega
  · rwa [List.drop_drop]

/-- The first of the values begins with a marker, and what the marker announces stands behind it,
    unless the marker is reserved. -/
theorem Stocked.exists_marker {n : Nat} {bs : Bytes} (h : Stocked 0 (n + 1) bs) :
    ∃ b rest, bs = b :: rest ∧ (Marker.ofByte b = .reserved ∨ ∃ layout a,
      (Marker.ofByte b).layout = some layout ∧ layout.announced rest = some a ∧
        Stocked (a.width + a.body) (n + a.nested) rest) := by
  obtain ⟨-, hlegible⟩ := h
  rw [List.drop_zero] at hlegible
  cases hlegible with
  | reserved hb _ tail => exact ⟨_, tail, rfl, .inl (Marker.eq_reserved hb)⟩
  | marker hlayout hannounced hfits hrest =>
    exact ⟨_, _, rfl, .inr ⟨_, _, hlayout, hannounced, hfits, hrest⟩⟩

/-- The bytes last: either what was read has the property, or it is refused, but not because the
    bytes have run out. -/
def Lasts {β : Type} (P : β → Prop) : Except ReadError β → Prop
  | .ok b => P b
  | .error e => e.isTruncation = false

/-- What was read leaves `n` values. -/
abbrev Leaves {α : Type} (n : Nat) : Except ReadError (α × Bytes) → Prop :=
  Lasts fun p => Stocked 0 n p.2

/-- Of any values at the front the reader takes one, if it does not refuse it. -/
def Content {α : Type} (read : Reader α) : Prop :=
  ∀ n bs, Stocked 0 (n + 1) bs → Leaves n (read bs)

/-- A whole value is enough for the reader, whatever follows. -/
def Suffices {α : Type} (read : Reader α) : Prop :=
  ∀ w tail e, Values 1 w → read (w ++ tail) = .error e → e.isTruncation = false

section

variable {α β γ : Type} {n : Nat} {bs : Bytes}

theorem Content.suffices {read : Reader α} (h : Content read) : Suffices read := by
  intro w tail e hw he
  have hlasts := h 0 (w ++ tail) (stocked_of_values hw tail)
  rwa [he] at hlasts

/-- A reserved marker in the middle of a value is refused, whatever follows. -/
theorem Content.refuses {read : Reader α} (h : Content read) {k : Nat} {u : Bytes} {b : UInt8}
    (hu : Partway (k + 1) 1 u) (hb : (Marker.ofByte b).layout = none) (tail : Bytes) {e : ReadError}
    (he : read (u ++ b :: tail) = .error e) : e.isTruncation = false := by
  have hlasts := h 0 _ (stocked_of_partway hu hb tail)
  rwa [he] at hlasts

theorem Lasts.bind {P : β → Prop} {Q : γ → Prop} {x : Except ReadError β}
    {next : β → Except ReadError γ} (h : Lasts P x) (hnext : ∀ b, P b → Lasts Q (next b)) :
    Lasts Q (x >>= next) := by
  cases x with
  | error e => exact h
  | ok b => exact hnext b h

theorem Lasts.mono {P Q : β → Prop} {x : Except ReadError β} (h : Lasts P x)
    (himp : ∀ b, P b → Q b) : Lasts Q x := by
  cases x with
  | error e => exact h
  | ok b => exact himp b h

theorem lasts_enter (budget : Nat) : Lasts (fun _ => True) (enter budget) := by
  cases budget with
  | zero => exact rfl
  | succ budget => exact trivial

theorem isTruncation_at (item : Item) (m : Mismatch) :
    (ReadError.at item m).isTruncation = false := by
  cases item <;> rfl

/-! ## Tokens -/

theorem lasts_takeBytes {taken body : Nat} (h : Stocked (taken + body) n bs)
    (short : ReadError) :
    Lasts (fun p => Stocked body n p.2 ∧ p.1 = bs.take taken) (takeBytes short taken bs) := by
  have hlength : (bs.take taken).length = taken := by
    rw [List.length_take]
    exact Nat.min_eq_left (Nat.le_trans (Nat.le_add_right _ _) h.1)
  rw [takeBytes, if_pos hlength]
  exact ⟨h.drop, rfl⟩

theorem lasts_takeField {w : Width} {body : Nat} (h : Stocked (w.octets + body) n bs) :
    Lasts (fun p => Stocked body n p.2 ∧ p.1 = ofBigEndian (bs.take w.octets)) (takeField w bs) :=
  (lasts_takeBytes h .noData).bind fun _ hp => ⟨hp.1, congrArg ofBigEndian hp.2⟩

theorem leaves_takeBody {body : Nat} (h : Stocked body n bs) : Leaves n (takeBody body bs) :=
  have h : Stocked (body + 0) n bs := h
  (lasts_takeBytes h .noBody).mono fun _ hp => hp.1

/-- Behind the token there is its body, and then the values that it nests and `n` others. -/
abbrev Begins (n : Nat) : Except ReadError (Token × Bytes) → Prop :=
  Lasts fun p => Stocked p.1.body (n + p.1.nested) p.2

/-- A marker with a field makes a token of the number there. -/
theorem begins_field {w : Width} (make : Nat → Token)
    (h : Stocked (w.octets + (make (ofBigEndian (bs.take w.octets))).body)
      (n + (make (ofBigEndian (bs.take w.octets))).nested) bs) :
    Begins n (do let (k, rest) ← takeField w bs; return (make k, rest)) := by
  refine (lasts_takeField h).bind fun p hp => ?_
  obtain ⟨hstocked, hnumber⟩ := hp
  rw [← hnumber] at hstocked
  exact hstocked

/-- A number ends with its field. -/
theorem begins_number {w : Width} (make : Nat → Token)
    (hmake : ∀ k, (make k).body = 0 ∧ (make k).nested = 0) (h : Stocked w.octets n bs) :
    Begins n (do let (k, rest) ← takeField w bs; return (make k, rest)) := by
  refine begins_field make ?_
  rw [(hmake _).1, (hmake _).2]
  exact h

/-- What the marker announces is what belongs to its token. -/
theorem begins_token {m : Marker} {layout : Layout} {a : Announced}
    (hlayout : m.layout = some layout) (hannounced : layout.announced bs = some a)
    (h : Stocked (a.width + a.body) (n + a.nested) bs) : Begins n (m.token bs) := by
  cases m with
  | reserved => cases hlayout
  | nil | bool _ | fixUnsigned _ | fixNegative _ | fixText _ | fixList _ | fixMap _
  | fixExtension _ =>
    obtain rfl := Option.some.inj hlayout
    obtain rfl := Option.some.inj hannounced
    rw [Nat.zero_add] at h
    exact h
  | unsigned w =>
    obtain rfl := Option.some.inj hlayout
    obtain rfl := Option.some.inj hannounced
    rw [Nat.zero_add] at h
    exact begins_number (fun k => .unsigned (UInt64.ofNat k)) (fun _ => ⟨rfl, rfl⟩) h
  | signed w =>
    obtain rfl := Option.some.inj hlayout
    obtain rfl := Option.some.inj hannounced
    rw [Nat.zero_add] at h
    exact begins_number (fun k => .signed (signedOf w k)) (fun _ => ⟨rfl, rfl⟩) h
  | float32 =>
    obtain rfl := Option.some.inj hlayout
    obtain rfl := Option.some.inj hannounced
    exact begins_number (w := .four) (fun k => .float (Binary64.widen (UInt32.ofNat k)))
      (fun _ => ⟨rfl, rfl⟩) h
  | float64 =>
    obtain rfl := Option.some.inj hlayout
    obtain rfl := Option.some.inj hannounced
    exact begins_number (w := .eight) (fun k => .float ⟨UInt64.ofNat k⟩) (fun _ => ⟨rfl, rfl⟩) h
  | text w | bytes w | extension w =>
    obtain rfl := Option.some.inj hlayout
    obtain rfl := announced_sized_eq hannounced
    exact begins_field _ h
  | list w =>
    obtain rfl := Option.some.inj hlayout
    obtain rfl := announced_counted_eq hannounced
    rw [Nat.mul_one] at h
    exact begins_field .list h
  | map w =>
    obtain rfl := Option.some.inj hlayout
    obtain rfl := announced_counted_eq hannounced
    rw [Nat.mul_comm] at h
    exact begins_field .map h

theorem begins_readToken (h : Stocked 0 (n + 1) bs) : Begins n (readToken bs) := by
  obtain ⟨b, rest, rfl, hreserved | ⟨layout, a, hlayout, hannounced, hrest⟩⟩ := h.exists_marker
  · have htoken : Begins n ((Marker.ofByte b).token rest) := by
      rw [hreserved]
      rfl
    exact htoken
  · exact begins_token hlayout hannounced hrest

/-- An item without contents leaves what stands behind it. -/
theorem lasts_item {t : Token} (h : Stocked t.body (n + t.nested) bs) (budget : Nat) :
    Lasts (fun p => isContainer p.1 = false → Stocked 0 n p.2) (t.item budget bs) := by
  cases t with
  | text k =>
    refine (leaves_takeBody h).bind fun p hp => ?_
    dsimp only
    cases Utf8.decode p.1 with
    | ok s => exact fun _ => hp
    | error why => exact fun _ => hp
  | bytes k => exact (leaves_takeBody h).bind fun _ hp _ => hp
  | list _ | map _ | extension _ =>
    refine (lasts_enter budget).bind fun _ _ => ?_
    intro hcontainer
    nomatch hcontainer
  | nil | bool _ | unsigned _ | signed _ | float _ => exact fun _ => h

/-! ## Dynamic values -/

theorem leaves_readManyOnto {read : Reader α} (hread : Content read) {done : List α} {k : Nat}
    (h : Stocked 0 (n + k) bs) : Leaves n (readManyOnto read done k bs) := by
  induction k generalizing done bs with
  | zero => exact h
  | succ k ih => exact (hread (n + k) bs h).bind fun p hp => ih hp

theorem leaves_readMany {read : Reader α} (hread : Content read) {k : Nat}
    (h : Stocked 0 (n + k) bs) : Leaves n (readMany read k bs) := leaves_readManyOnto hread h

theorem content_readName (first : Bool) (budget : Nat) : Content (readName first budget) := by
  intro n bs h
  refine (begins_readToken h).bind fun p hp => ?_
  refine (lasts_item hp budget).bind fun q hq => ?_
  obtain ⟨item, rest⟩ := q
  cases first with
  | true =>
    cases item with
    | text s => exact hq rfl
    | _ => exact isTruncation_at _ _
  | false =>
    dsimp only
    rw [if_neg Bool.false_ne_true]
    cases hs : item.asText with
    | ok s => exact hq (isContainer_of_asText hs)
    | error m => exact isTruncation_at item m

theorem leaves_readEntries {budget : Nat} {read : Reader Value} (hread : Content read)
    {first : Bool} {fields : Fields} {k : Nat} (h : Stocked 0 (n + 2 * k) bs) :
    Leaves n (readEntries budget read first fields k bs) := by
  induction k generalizing first fields bs with
  | zero => exact h
  | succ k ih =>
    refine (content_readName first budget (n + 2 * k + 1) bs h).bind fun p hp => ?_
    exact (hread (n + 2 * k) p.2 hp).bind fun q hq => ih hq

theorem isTruncation_of_valueOfItem {item : Item} {e : ReadError}
    (h : valueOfItem item = .error e) : e.isTruncation = false := by
  cases item with
  | nil | bool _ | unsigned _ | signed _ | float _ | text _ => nomatch h
  | _ => exact Except.error.inj h ▸ isTruncation_at _ _

theorem content_readValueWith {budget : Nat} {inner : Reader Value} (h : Content inner) :
    Content (readValueWith budget inner) := by
  intro n bs hbs
  refine (begins_readToken hbs).bind fun p hp => ?_
  obtain ⟨t, rest⟩ := p
  cases t with
  | list k =>
    refine (lasts_enter budget).bind fun _ _ => ?_
    exact (leaves_readMany h hp).bind fun _ hq => hq
  | map k =>
    refine (lasts_enter budget).bind fun budget _ => ?_
    exact (leaves_readEntries h hp).bind fun _ hq => hq
  | nil | bool _ | unsigned _ | signed _ | float _ | text _ | bytes _ | extension _ =>
    refine (lasts_item hp budget).bind fun q hq => ?_
    dsimp only
    cases hv : valueOfItem q.1 with
    | ok v => exact hq (isContainer_of_valueOfItem hv)
    | error e => exact isTruncation_of_valueOfItem hv

theorem content_readValue (budget : Nat) : Content (readValue budget) := by
  induction budget with
  | zero => exact content_readValueWith fun _ _ _ => rfl
  | succ budget ih => exact content_readValueWith ih

theorem content_skipValueWith {budget : Nat} {inner : Reader Unit} (h : Content inner) :
    Content (skipValueWith budget inner) := by
  intro n bs hbs
  refine (begins_readToken hbs).bind fun p hp => ?_
  obtain ⟨t, rest⟩ := p
  cases t with
  | text k | bytes k => exact (leaves_takeBody hp).bind fun _ hq => hq
  | list k | map k =>
    refine (lasts_enter budget).bind fun _ _ => ?_
    exact (leaves_readMany h hp).bind fun _ hq => hq
  | extension k =>
    have hp : Stocked (1 + k) n rest := by rwa [Nat.add_comm]
    refine (lasts_enter budget).bind fun _ _ => ?_
    refine (lasts_takeBytes hp .noData).bind fun q hq => ?_
    exact (leaves_takeBody hq.1).bind fun _ hr => hr
  | nil | bool _ | unsigned _ | signed _ | float _ => exact hp

theorem content_skipValue (budget : Nat) : Content (skipValue budget) := by
  induction budget with
  | zero => exact content_skipValueWith fun _ _ _ => rfl
  | succ budget ih => exact content_skipValueWith ih

theorem suffices_readListLength : Suffices readListLength := by
  intro w tail e hw he
  obtain ⟨b, rest, hbs, hmarker⟩ := (stocked_of_values hw tail).exists_marker
  have hlasts : Lasts (fun _ => True) (readListLength (b :: rest)) := by
    refine Lasts.bind (P := fun p => p = (Marker.ofByte b, rest)) rfl fun p hp => ?_
    subst hp
    dsimp only
    split
    · exact trivial
    · -- The length field belongs to the value.
      rename_i hm
      rw [hm] at hmarker
      obtain ⟨layout, a, hlayout, hannounced, hstocked⟩ := hmarker.resolve_left nofun
      obtain rfl := Option.some.inj hlayout
      obtain rfl := announced_counted_eq hannounced
      exact (lasts_takeField hstocked).mono fun _ _ => trivial
    · rfl
  rwa [← hbs, he] at hlasts

end

end MessagePack

open MessagePack

/-! ## Shapes -/

variable {n : Nat} {bs : Bytes}

theorem content_readScalar (s : Scalar) (budget : Nat) : Content (s.read budget) := by
  intro n bs h
  have htoken := begins_readToken h
  obtain ⟨b, rest, rfl, -⟩ := h.exists_marker
  refine Lasts.bind (P := fun p => p = (Marker.ofByte b, rest)) rfl fun p hp => ?_
  subst hp
  dsimp only
  split
  · rfl
  · refine Lasts.bind (x := (Marker.ofByte b).token rest) htoken fun p hp => ?_
    refine (lasts_item hp budget).bind fun q hq => ?_
    obtain ⟨item, rest⟩ := q
    cases hs : s.accept item with
    | ok a => exact hq (isContainer_of_accept hs)
    | error m => exact isTruncation_at item m

theorem content_readOptional (s : Scalar) (budget : Nat) : Content (readOptional s budget) := by
  intro n bs h
  have htoken := begins_readToken h
  have hscalar := content_readScalar s budget n bs h
  obtain ⟨b, rest, rfl, -⟩ := h.exists_marker
  refine Lasts.bind (P := fun p => p = (Marker.ofByte b, rest)) rfl fun p hp => ?_
  subst hp
  dsimp only
  split
  · rename_i hnil
    have htoken : Begins n ((Marker.ofByte b).token rest) := htoken
    rw [hnil] at htoken
    exact htoken
  · exact hscalar.bind fun _ hq => hq

theorem content_readSlot (k : Slot) (budget : Nat) : Content (k.read budget) := by
  cases k with
  | required s => exact content_readScalar s budget
  | defaulted s _ => exact content_readScalar s budget
  | optional s => exact content_readOptional s budget

/-- The fields of a record leave the items that they tell of. -/
theorem lasts_readRow {r : RecordType} {budget : Nat} {fields : List RecordField}
    {index left : Nat} (h : Stocked 0 (n + left) bs) :
    Lasts (fun p => Stocked 0 (n + p.1.2) p.2) (readRow r budget fields index left bs) := by
  induction fields generalizing index left bs with
  | nil => exact h
  | cons f fs ih =>
    cases left with
    | zero =>
      simp only [readRow]
      cases f.slot.absent with
      | some v => exact (ih h).bind fun _ hp => hp
      | none => rfl
    | succ left =>
      refine (content_readSlot f.slot budget (n + left) bs h).bind fun p hp => ?_
      exact (ih hp).bind fun _ hq => hq

theorem content_readKey (fields : List RecordField) (budget : Nat) :
    Content (readKey fields budget) := by
  intro n bs h
  refine (begins_readToken h).bind fun p hp => ?_
  refine (lasts_item hp budget).bind fun q hq => ?_
  dsimp only
  cases hi : fieldOfKey fields q.1 with
  | ok i => exact hq (isContainer_of_fieldOfKey hi)
  | error m => exact isTruncation_at q.1 m

theorem leaves_readDraft {fields : List RecordField} {budget : Nat} {d : Draft fields} {k : Nat}
    (h : Stocked 0 (n + 2 * k) bs) : Leaves n (readDraft fields budget d k bs) := by
  induction k generalizing d bs with
  | zero => exact h
  | succ k ih =>
    refine (content_readKey fields budget (n + 2 * k + 1) bs h).bind fun p hp => ?_
    obtain ⟨key, rest⟩ := p
    cases key with
    | none =>
      exact (content_skipValue budget (n + 2 * k) rest hp).bind fun q hq => ih hq
    | some i =>
      dsimp only
      split
      · rfl
      · exact (content_readSlot _ budget (n + 2 * k) rest hp).bind fun q hq => ih hq

theorem content_readRecord (r : RecordType) (budget : Nat) : Content (r.read budget) := by
  intro n bs h
  -- A list may be longer than the record only if it is refused.
  have hexactly : ∀ row : Row r.fields × Nat,
      Lasts (fun _ => row.2 = 0) (exactly row) := by
    intro row
    rw [exactly]
    split
    · assumption
    · rfl
  refine (begins_readToken h).bind fun p hp => ?_
  obtain ⟨t, rest⟩ := p
  cases t with
  | list k =>
    refine (lasts_enter budget).bind fun budget _ => ?_
    refine (lasts_readRow hp).bind fun q hq => ?_
    refine (hexactly q.1).bind fun _ hzero => ?_
    rw [hzero] at hq
    exact hq
  | map k =>
    refine (lasts_enter budget).bind fun budget _ => ?_
    refine (leaves_readDraft hp).bind fun q hq => ?_
    dsimp only
    cases q.1.complete with
    | ok row => exact hq
    | error m => rfl
  | bytes k =>
    refine (leaves_takeBody hp).bind fun q hq => ?_
    dsimp only
    cases Row.ofItems r r.fields 0 (q.1.map fun b => .unsigned b.toUInt64) with
    | ok row => exact (hexactly row).bind fun _ _ => hq
    | error m => rfl
  | nil | bool _ | unsigned _ | signed _ | float _ | text _ | extension _ =>
    exact (lasts_item hp budget).bind fun q _ => isTruncation_at q.1 _

theorem content_readOctets (budget : Nat) : Content (readOctets budget) := by
  intro n bs h
  refine (begins_readToken h).bind fun p hp => ?_
  obtain ⟨t, rest⟩ := p
  cases t with
  | list k =>
    refine (lasts_enter budget).bind fun budget _ => ?_
    exact leaves_readMany (content_readScalar .u8 budget) hp
  | bytes k => exact leaves_takeBody hp
  | nil | bool _ | unsigned _ | signed _ | float _ | text _ | map _ | extension _ =>
    exact (lasts_item hp budget).bind fun q _ => isTruncation_at q.1 _

theorem content_readShape (s : Shape) : Content s.read := by
  cases s with
  | dynamic => exact content_readValue maxDepth
  | scalar s => exact content_readScalar s maxDepth
  | optional s => exact content_readOptional s maxDepth
  | octets => exact content_readOctets maxDepth
  | record r => exact content_readRecord r maxDepth

theorem content_readHeader : Content Header.read := fun n bs h =>
  (content_readRecord Header.type maxDepth n bs h).bind fun _ hp => hp

end FrameRpc
