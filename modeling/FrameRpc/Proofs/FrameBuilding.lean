import FrameRpc.Proofs.FrameStream
import FrameRpc.Proofs.SchemaRoundTrip
import FrameRpc.Proofs.Untyped

/-!
# Building frames

A frame is built by pushes, any of which may fail: a value may have no domain form, or a schema may
refuse the one that it has. What a push that succeeds adds is its `Payload`, and a push that fails
adds nothing (`FrameBuilder.perform_of_error`). So after any history the frame is its header and the
encodings of the payloads (`FrameBuilder.after_eq`), each as if it had been written on its own, and
who knows where schemas were used reads back what was pushed (`Decoder.Delivers.readsBack`).
-/

namespace FrameRpc

open MessagePack

/-! ## Pushes -/

/-- What a caller may push. -/
inductive Push where
  /-- A value of a shape, as it is. -/
  | plain (s : Shape) (a : s.Carrier)
  /-- The wire form of a value, if it has a domain form. -/
  | compact (S : Schema) (domain : Except Mismatch Value)

/-- What a successful push adds to a frame. -/
inductive Payload where
  /-- A value of a shape. -/
  | plain (s : Shape) (a : s.Carrier)
  /-- A wire form of the schema. -/
  | wire (S : Schema) (w : Value)

namespace Payload

/-- The encoding on its own. -/
def bytes : Payload → Bytes
  | .plain s a => s.write a
  | .wire _ w => MessagePack.write w

/-- How it is pulled. -/
def pull : Payload → Pull
  | .plain _ _ => .next .dynamic
  | .wire S _ => .compact S

/-- The dynamic value that is read. -/
def value : Payload → Value
  | .plain s a => s.toValue a
  | .wire _ w => w

/-- What pulling it gives: the value that was pushed, or the domain form of the wire form. -/
def result : (p : Payload) → Except Error p.pull.Result
  | .plain s a => .ok (s.toValue a)
  | .wire S w => (S.decode w).mapError Error.schema

/-- It does not nest too deep, and all lengths fit length fields. -/
def Sendable : Payload → Prop
  | .plain s a => s.ShortNames ∧ s.Short a ∧ (s.toValue a).depth ≤ maxDepth
  | .wire _ w => w.Writable maxDepth

/-- What a caller sees who pulls payloads from this offset on. -/
def answers (offset : Nat) : List Payload → List Answer
  | [] => []
  | p :: rest =>
    ⟨.pull p.pull, p.result, offset + p.bytes.length⟩ :: answers (offset + p.bytes.length) rest

theorem Sendable.reads {p : Payload} (h : p.Sendable) :
    Reads (readValue maxDepth) p.bytes p.value := by
  cases p with
  | plain s a => exact Shape.reads_untyped h.1 h.2.1 h.2.2
  | wire S w => exact reads_write h

end Payload

namespace Push

/-- What a push adds, or why it fails. -/
def payload : Push → Except Error Payload
  | .plain s a => .ok (.plain s a)
  | .compact S domain => (S.encodeFrom domain).map (.wire S)

/-- What the pushes that succeed add, in order. -/
def payloads (pushes : List Push) : List Payload :=
  pushes.filterMap fun p => p.payload.toOption

variable {p : Push}

theorem payloads_of_ok {q : Payload} (h : p.payload = .ok q) (pushes : List Push) :
    payloads (p :: pushes) = q :: payloads pushes := by
  refine List.filterMap_cons_some ?_
  rw [h]
  rfl

theorem payloads_of_error {e : Error} (h : p.payload = .error e) (pushes : List Push) :
    payloads (p :: pushes) = payloads pushes := by
  refine List.filterMap_cons_none ?_
  rw [h]
  rfl

end Push

/-! ## Building -/

namespace FrameBuilder

/-- Pushes, and keeps the frame as it was where that fails. -/
def perform (b : FrameBuilder) : Push → Except Error Unit × FrameBuilder
  | .plain s a => (.ok (), b.push s a)
  | .compact S domain =>
    match b.pushCompact S domain with
    | .ok b' => (.ok (), b')
    | .error e => (.error e, b)

/-- The frame after a list of pushes, whatever they come to. -/
def after (b : FrameBuilder) : List Push → FrameBuilder
  | [] => b
  | p :: rest => (b.perform p).2.after rest

/-- What a list of pushes comes to, one after the other. -/
def outcomes (b : FrameBuilder) : List Push → List (Except Error Unit)
  | [] => []
  | p :: rest => (b.perform p).1 :: (b.perform p).2.outcomes rest

variable {b : FrameBuilder} {p : Push}

theorem perform_of_ok {q : Payload} (h : p.payload = .ok q) :
    b.perform p = (.ok (), ⟨b.bytes ++ q.bytes, b.count + 1⟩) := by
  cases p with
  | plain s a =>
    cases h
    rfl
  | compact S domain =>
    obtain ⟨w, hw, rfl⟩ := exists_of_map_eq_ok h
    rw [perform, pushCompact, hw]
    rfl

theorem perform_of_error {e : Error} (h : p.payload = .error e) : b.perform p = (.error e, b) := by
  cases p with
  | plain s a => nomatch h
  | compact S domain =>
    cases hw : S.encodeFrom domain with
    | ok w =>
      rw [Push.payload, hw] at h
      nomatch h
    | error e' =>
      rw [Push.payload, hw] at h
      obtain rfl : e' = e := Except.error.inj h
      rw [perform, pushCompact, hw]
      rfl

/-- What a push comes to does not depend on the frame. -/
theorem perform_fst (b : FrameBuilder) (p : Push) :
    (b.perform p).1 = p.payload.map fun _ => () := by
  cases h : p.payload with
  | ok q => rw [perform_of_ok h]; rfl
  | error e => rw [perform_of_error h]; rfl

theorem outcomes_eq (b : FrameBuilder) (pushes : List Push) :
    b.outcomes pushes = pushes.map fun p => p.payload.map fun _ => () := by
  induction pushes generalizing b with
  | nil => rfl
  | cons p pushes ih => rw [outcomes, ih, perform_fst, List.map_cons]

/-- The frame grows by the payloads. -/
theorem after_eq (b : FrameBuilder) (pushes : List Push) :
    b.after pushes = ⟨b.bytes ++ (Push.payloads pushes).flatMap Payload.bytes,
      b.count + (Push.payloads pushes).length⟩ := by
  induction pushes generalizing b with
  | nil => simp only [after, Push.payloads, List.filterMap_nil, List.flatMap_nil, List.append_nil,
      List.length_nil, Nat.add_zero]
  | cons p pushes ih =>
    rw [after, ih]
    cases h : p.payload with
    | error e => rw [perform_of_error h, Push.payloads_of_error h]
    | ok q =>
      rw [perform_of_ok h, Push.payloads_of_ok h]
      simp only [List.flatMap_cons, List.append_assoc, List.length_cons, Nat.add_assoc,
        Nat.add_comm 1]

end FrameBuilder

/-! ## Reading back -/

namespace Decoder

variable {d : Decoder} {size : Nat} {tail : Bytes}

/-- A payload is pulled as what was pushed. -/
theorem Delivers.answer_payload {p : Payload} (h : d.Delivers size (p.bytes ++ tail))
    (hp : p.Sendable) (hsize : p.bytes.length ≤ size) :
    ∃ d', d.answer (.pull p.pull) = (p.result, d') ∧ d'.Delivers size tail ∧
      d'.offset = d.offset + p.bytes.length := by
  obtain ⟨d', hd', h', hoffset⟩ :=
    h.pull hp.reads (values_of_reads hp.reads takes_readValue) hsize
  refine ⟨d', ?_, h', hoffset⟩
  cases p with
  | plain s a => exact hd'
  | wire S w =>
    rw [answer_eq, pullThen]
    change ((d.pull .value (readValue maxDepth)).1.bind _,
      (d.pull .value (readValue maxDepth)).2) = _
    rw [hd']
    rfl

/-- Payloads are pulled one after the other, and then nothing is left. -/
theorem Delivers.answers_payloads {payloads : List Payload}
    (h : d.Delivers size (payloads.flatMap Payload.bytes))
    (hp : ∀ p ∈ payloads, p.Sendable) (hsize : ∀ p ∈ payloads, p.bytes.length ≤ size)
    (r : Request) :
    d.answers (payloads.map (fun p => .pull p.pull) ++ [r])
      = Payload.answers d.offset payloads ++ [⟨r, .error .exhausted,
          d.offset + (payloads.flatMap Payload.bytes).length⟩] := by
  induction payloads generalizing d with
  | nil =>
    obtain ⟨hexhausted, hoffset⟩ := h.answer_exhausted r
    rw [List.map_nil, List.nil_append, Decoder.answers, Decoder.answers, hexhausted, hoffset]
    rfl
  | cons p payloads ih =>
    obtain ⟨hp, hps⟩ := List.forall_mem_cons.1 hp
    obtain ⟨hsize, hsizes⟩ := List.forall_mem_cons.1 hsize
    obtain ⟨d', hd', h', hoffset⟩ := h.answer_payload hp hsize
    rw [List.map_cons, List.cons_append, Decoder.answers, hd', ih h' hps hsizes, hoffset,
      Payload.answers, List.flatMap_cons, List.length_append, Nat.add_assoc]
    rfl

/-- Asked for a header, for the payloads and for one thing more, the decoder gives the header, what
    was pushed, and that nothing is left. -/
def ReadsBack (d : Decoder) (header : Header) (payloads : List Payload) : Prop :=
  ∀ r : Request, d.answers (.pull .header :: (payloads.map (fun p => .pull p.pull) ++ [r]))
    = ⟨.pull .header, .ok header, header.write.length⟩ ::
      (Payload.answers header.write.length payloads ++ [⟨r, .error .exhausted,
        (header.write ++ payloads.flatMap Payload.bytes).length⟩])

theorem Delivers.readsBack {header : Header} {payloads : List Payload}
    (h : d.Delivers size (header.write ++ payloads.flatMap Payload.bytes)) (hoffset : d.offset = 0)
    (hvalid : header.validate = .ok ()) (hshort : header.Short)
    (hp : ∀ p ∈ payloads, p.Sendable) (hheader : header.write.length ≤ size)
    (hsize : ∀ p ∈ payloads, p.bytes.length ≤ size) : d.ReadsBack header payloads := by
  intro r
  have hcheck : header.check = .ok header := by rw [Header.check, hvalid]
  obtain ⟨d', hd', h', hoffset'⟩ := h.nextHeader hshort hcheck hheader
  rw [hoffset, Nat.zero_add] at hoffset'
  have hanswer : d.answer (.pull .header) = (.ok header, d') := hd'
  rw [Decoder.answers, hanswer, h'.answers_payloads hp hsize r, hoffset', List.length_append]

end Decoder

/-- **A frame is the concatenation of its successful pushes.** A push that fails returns its error
    and changes nothing. After any pushes the frame is the encoding of its header and those of the
    payloads, each on its own, and counts them. If the header is valid, the payloads are not too
    deep, and no length is beyond the length fields, then reading it back, from bytes that are all
    there or in any pieces, gives the header and what was pushed. -/
theorem FrameBuilder.concatenates (header : Header) (pushes : List Push) :
    (∀ (b : FrameBuilder) (S : Schema),
      (∀ v e, S.encode v = .error e →
        b.perform (.compact S (.ok v)) = (.error (.schema e), b)) ∧
      ∀ why, b.perform (.compact S (.error why)) = (.error (.conversion why), b)) ∧
    (FrameBuilder.new header).outcomes pushes = pushes.map (fun p => p.payload.map fun _ => ()) ∧
    ((FrameBuilder.new header).after pushes).bytes
      = header.write ++ (Push.payloads pushes).flatMap Payload.bytes ∧
    ((FrameBuilder.new header).after pushes).count = (Push.payloads pushes).length ∧
    (header.validate = .ok () → header.Short → (∀ p ∈ Push.payloads pushes, p.Sendable) →
      (Decoder.ofBytes ((FrameBuilder.new header).after pushes).bytes).ReadsBack header
        (Push.payloads pushes) ∧
      ∀ (mode : Mode) (config : DecoderConfig) (chunks : List Bytes), (∀ c ∈ chunks, c ≠ []) →
        chunks.flatten = ((FrameBuilder.new header).after pushes).bytes →
        config.limit ≤ wordMax → header.write.length ≤ config.limit →
        (∀ p ∈ Push.payloads pushes, p.bytes.length ≤ config.limit) →
        (Decoder.new mode (chunks.map .bytes) config).ReadsBack header (Push.payloads pushes)) := by
  have hbytes : ((FrameBuilder.new header).after pushes).bytes
      = header.write ++ (Push.payloads pushes).flatMap Payload.bytes :=
    congrArg FrameBuilder.bytes (after_eq (new header) pushes)
  have hcount : ((FrameBuilder.new header).after pushes).count = (Push.payloads pushes).length :=
    (congrArg FrameBuilder.count (after_eq (new header) pushes)).trans (Nat.zero_add _)
  refine ⟨fun b S => ⟨fun v e he => perform_of_error ?_, fun why => perform_of_error rfl⟩,
    outcomes_eq _ pushes, hbytes, hcount, fun hvalid hshort hp =>
      ⟨?_, fun mode config chunks nonempty hchunks hlimit hheader hsize => ?_⟩⟩
  · rw [Push.payload, Schema.encodeFrom, he]
    rfl
  · -- All bytes are there, so no size is too large.
    have h := Decoder.delivers_ofBytes
      (header.write ++ (Push.payloads pushes).flatMap Payload.bytes).length
      (header.write ++ (Push.payloads pushes).flatMap Payload.bytes)
    rw [hbytes]
    refine h.readsBack rfl hvalid hshort hp ?_ fun p hp => ?_
    · rw [List.length_append]
      exact Nat.le_add_right _ _
    · rw [List.length_append]
      exact Nat.le_trans (length_le_flatMap hp) (Nat.le_add_left _ _)
  · have h := Decoder.delivers_new mode hlimit nonempty
    rw [hchunks, hbytes] at h
    exact h.readsBack rfl hvalid hshort hp hheader hsize

/-- Two octets and a room, and between them a role that no room knows and a value without a domain
    form. -/
def roomPushes : List Push :=
  [.plain .octets [1, 2], .compact (.literal [.text "tank"]) (.ok (.text "bard")),
    .compact .identity (.error .keyNotText), .compact Schema.roomSchema (.ok Schema.roomValue)]

/-- The wire form of the room. -/
def roomWire : Value :=
  .list [.list [.text "ana", .list [.list [.ofNat 1, .bool true]], .ofNat 1]]

/-- Of the four pushes the first and the last add something, and both are read back, from bytes that
    are all there and from pieces of three bytes. -/
theorem concatenates_room :
    (FrameBuilder.new (.once "7" "room")).perform (.compact (.literal [.text "tank"])
        (.ok (.text "bard")))
      = (.error (.schema ⟨[], .unknownLiteral (.text "bard")⟩), .new (.once "7" "room")) ∧
    (FrameBuilder.new (.once "7" "room")).outcomes roomPushes
      = [.ok (), .error (.schema ⟨[], .unknownLiteral (.text "bard")⟩),
          .error (.conversion .keyNotText), .ok ()] ∧
    ((FrameBuilder.new (.once "7" "room")).after roomPushes).bytes
      = (Header.once "7" "room").write ++ ([0x92, 1, 2] ++ MessagePack.write roomWire) ∧
    ((FrameBuilder.new (.once "7" "room")).after roomPushes).count = 2 ∧
    (Decoder.ofBytes ((FrameBuilder.new (.once "7" "room")).after roomPushes).bytes).ReadsBack
      (.once "7" "room") [.plain .octets [1, 2], .wire Schema.roomSchema roomWire] ∧
    (Decoder.new .async
        ((pieces 2 ((FrameBuilder.new (.once "7" "room")).after roomPushes).bytes).map .bytes)
        ⟨2, 64⟩).ReadsBack (.once "7" "room")
      [.plain .octets [1, 2], .wire Schema.roomSchema roomWire] := by
  have hpayloads : Push.payloads roomPushes
      = [.plain .octets [1, 2], .wire Schema.roomSchema roomWire] := rfl
  have hheader : Header.Short (.once "7" "room") := by
    refine ⟨by decide, by decide, ?_⟩
    rintro _ ⟨⟩
    decide
  have hwire : roomWire.Writable maxDepth :=
    ⟨⟨⟨trivial, ⟨⟨trivial, trivial, trivial⟩, trivial⟩, trivial, trivial⟩, trivial⟩, by decide,
      by decide, ⟨by decide, show ShortText "ana" by decide,
        ⟨by decide, ⟨by decide, trivial, trivial, trivial⟩, trivial⟩, trivial, trivial⟩, trivial⟩
  have hp : ∀ p ∈ Push.payloads roomPushes, p.Sendable := by
    rw [hpayloads]
    refine List.forall_mem_cons.2 ⟨⟨trivial, show 2 < lengthRange by decide, by decide⟩, ?_⟩
    exact List.forall_mem_singleton.2 hwire
  obtain ⟨hfails, houtcomes, hbytes, hcount, hreads⟩ :=
    FrameBuilder.concatenates (.once "7" "room") roomPushes
  obtain ⟨hall, hpieces⟩ := hreads rfl hheader hp
  refine ⟨(hfails _ _).1 _ _ rfl, houtcomes.trans rfl, hbytes.trans rfl, hcount.trans rfl, hall, ?_⟩
  refine hpieces .async ⟨2, 64⟩ _ (fun c hc => ne_nil_of_mem_pieces ?_ hc) (flatten_pieces 2 _)
    (by decide) (by decide +kernel) ?_
  · rw [hbytes]
    decide +kernel
  · rw [hpayloads]
    decide +kernel

end FrameRpc
