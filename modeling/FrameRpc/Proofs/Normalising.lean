import FrameRpc.Proofs.FrameStream
import FrameRpc.Proofs.Objects
import FrameRpc.Proofs.ShortReads

/-!
# Parsing normalises

Bytes that can be parsed as a frame need not be those that the frame is written as: integers and
lengths may be wider than they have to be, names may be byte strings and come twice, and headers may
be lists. But what is read of them can be written: a value is canonical, within the depth that is
read, and short (`MessagePack.writable_of_readValue`), and a header is valid and short. So the frame
is one that can be sent (`Frame.sendable_of_parse`), and written again it is parsed as what it was
(`Frame.parse_encode_of_parse`).
-/

namespace FrameRpc

open MessagePack

/-! ## Writable containers -/

namespace Value

variable {budget n : Nat} {items : List Value} {fields : Fields}

theorem depthList_le (h : ∀ v ∈ items, v.depth ≤ n) : depthList items ≤ n := by
  induction items with
  | nil => exact Nat.zero_le n
  | cons v rest ih =>
    obtain ⟨hv, hrest⟩ := List.forall_mem_cons.1 h
    exact Nat.max_le.2 ⟨hv, ih hrest⟩

theorem depthFields_le (h : ∀ e ∈ fields, e.2.depth ≤ n) : depthFields fields ≤ n := by
  induction fields with
  | nil => exact Nat.zero_le n
  | cons e rest ih =>
    obtain ⟨he, hrest⟩ := List.forall_mem_cons.1 h
    exact Nat.max_le.2 ⟨he, ih hrest⟩

theorem shortItems_iff : ShortItems items ↔ ∀ v ∈ items, v.Short := by
  induction items with
  | nil => exact ⟨fun _ _ h => (nomatch h), fun _ => trivial⟩
  | cons v rest ih => rw [List.forall_mem_cons, ← ih, ShortItems]

theorem shortFields_iff : ShortFields fields ↔ ∀ e ∈ fields, ShortText e.1 ∧ e.2.Short := by
  induction fields with
  | nil => exact ⟨fun _ _ h => (nomatch h), fun _ => trivial⟩
  | cons e rest ih => rw [List.forall_mem_cons, ← ih, ShortFields, and_assoc]

theorem writable_list (hlength : items.length < lengthRange)
    (h : ∀ v ∈ items, v.Writable budget) : (Value.list items).Writable (budget + 1) where
  canonical := canonicalList_iff.2 fun v hv => (h v hv).canonical
  depth_le := Nat.succ_le_succ (depthList_le fun v hv => (h v hv).depth_le)
  short := ⟨hlength, shortItems_iff.2 fun v hv => (h v hv).short⟩

theorem writable_object (hordered : fields.Ordered) (hlength : fields.length < lengthRange)
    (h : ∀ e ∈ fields, ShortText e.1 ∧ e.2.Writable budget) :
    (Value.object fields).Writable (budget + 1) where
  canonical := ⟨hordered, canonicalFields_iff.2 fun e he => (h e he).2.canonical⟩
  depth_le := Nat.succ_le_succ (depthFields_le fun e he => (h e he).2.depth_le)
  short := ⟨hlength, shortFields_iff.2 fun e he => ⟨(h e he).1, (h e he).2.short⟩⟩

end Value

/-! ## Setting names -/

namespace Fields

variable {fields : Fields} {name : String} {v : Value}

theorem mem_insert {e : String × Value} (h : e ∈ fields.insert name v) :
    e = (name, v) ∨ e ∈ fields := by
  induction fields with
  | nil => exact .inl (List.mem_singleton.1 h)
  | cons f rest ih =>
    obtain ⟨n, w⟩ := f
    rw [insert] at h
    split at h
    · exact List.mem_cons.1 h
    · split at h
      · exact (List.mem_cons.1 h).imp_right (List.mem_cons_of_mem _)
      · rcases List.mem_cons.1 h with rfl | h
        · exact .inr List.mem_cons_self
        · exact (ih h).imp_right (List.mem_cons_of_mem _)

theorem length_insert_le (fields : Fields) (name : String) (v : Value) :
    (fields.insert name v).length ≤ fields.length + 1 := by
  induction fields with
  | nil => exact Nat.le_refl _
  | cons f rest ih =>
    rw [insert]
    split
    · exact Nat.le_refl _
    · split
      · exact Nat.le_succ _
      · exact Nat.succ_le_succ ih

end Fields

/-! ## What is read can be written -/

namespace MessagePack

variable {α : Type} {bs rest : Bytes} {budget n : Nat}

/-- Values read one after the other all have the property of one. -/
theorem forall_of_readManyOnto {P : α → Prop} {read : Reader α}
    (h : ∀ bs a rest, read bs = .ok (a, rest) → P a) {done as : List α} (hdone : ∀ a ∈ done, P a)
    (hr : readManyOnto read done n bs = .ok (as, rest)) :
    as.length = done.length + n ∧ ∀ a ∈ as, P a := by
  induction n generalizing done bs with
  | zero =>
    obtain ⟨rfl, -⟩ := Prod.mk.inj (Except.ok.inj hr)
    exact ⟨List.length_reverse, fun a ha => hdone a (List.mem_reverse.1 ha)⟩
  | succ n ih =>
    obtain ⟨⟨a, mid⟩, ha, hr⟩ := exists_of_bind_eq_ok hr
    obtain ⟨hlength, has⟩ := ih (List.forall_mem_cons.2 ⟨h bs a mid ha, hdone⟩) hr
    exact ⟨by rw [hlength, List.length_cons, Nat.add_right_comm]; rfl, has⟩

theorem shortText_of_readName {first : Bool} {name : String}
    (h : readName first budget bs = .ok (name, rest)) : ShortText name := by
  obtain ⟨t, mid, item, ht, hitem, hs⟩ := exists_of_readName h
  exact (short_of_item (measured_of_readToken ht) hitem).asText hs

/-- The entries that are read leave the names in order, and each counts once at most. -/
theorem fields_of_readEntries {P : Value → Prop} {read : Reader Value}
    (h : ∀ bs v rest, read bs = .ok (v, rest) → P v) {first : Bool} {done fields : Fields}
    (hordered : done.Ordered) (hdone : ∀ e ∈ done, ShortText e.1 ∧ P e.2)
    (hr : readEntries budget read first done n bs = .ok (fields, rest)) :
    fields.Ordered ∧ fields.length ≤ done.length + n ∧ ∀ e ∈ fields, ShortText e.1 ∧ P e.2 := by
  induction n generalizing first done bs with
  | zero =>
    obtain ⟨rfl, -⟩ := Prod.mk.inj (Except.ok.inj hr)
    exact ⟨hordered, Nat.le_refl _, hdone⟩
  | succ n ih =>
    obtain ⟨⟨name, mid⟩, hname, hr⟩ := exists_of_bind_eq_ok hr
    obtain ⟨⟨v, mid'⟩, hv, hr⟩ := exists_of_bind_eq_ok hr
    have hset : ∀ e ∈ done.insert name v, ShortText e.1 ∧ P e.2 := by
      intro e he
      rcases Fields.mem_insert he with rfl | he
      · exact ⟨shortText_of_readName hname, h mid v mid' hv⟩
      · exact hdone e he
    obtain ⟨hordered', hlength, hfields⟩ := ih (Fields.ordered_insert hordered) hset hr
    have hle := Fields.length_insert_le done name v
    exact ⟨hordered', by omega, hfields⟩

theorem writable_of_valueOfItem {item : Item} {v : Value} (hitem : item.Short)
    (h : valueOfItem item = .ok v) (budget : Nat) : v.Writable budget := by
  cases item with
  | text s =>
    obtain rfl := Except.ok.inj h
    exact ⟨trivial, Nat.zero_le _, hitem⟩
  | float x =>
    obtain rfl := Except.ok.inj h
    rw [Value.ofFloat]
    split <;> exact ⟨trivial, Nat.zero_le _, trivial⟩
  | nil | bool | unsigned | signed =>
    obtain rfl := Except.ok.inj h
    exact ⟨trivial, Nat.zero_le _, trivial⟩
  | bytes | malformed | sequence | map | extension => cases h

theorem enter_eq_ok {b : Nat} (h : enter budget = .ok b) : budget = b + 1 := by
  cases budget with
  | zero => cases h
  | succ budget => exact congrArg (· + 1) (Except.ok.inj h)

theorem writable_of_readValueWith {inner : Reader Value}
    (h : ∀ b, budget = b + 1 → ∀ bs v rest, inner bs = .ok (v, rest) → v.Writable b) {v : Value}
    (hr : readValueWith budget inner bs = .ok (v, rest)) : v.Writable budget := by
  obtain ⟨⟨t, mid⟩, ht, hr⟩ := exists_of_bind_eq_ok hr
  have hmeasured := measured_of_readToken ht
  cases t with
  | list n =>
    obtain ⟨b, hb, hr⟩ := exists_of_bind_eq_ok hr
    obtain ⟨⟨items, rest'⟩, hitems, hr⟩ := exists_of_bind_eq_ok hr
    obtain ⟨rfl, -⟩ := Prod.mk.inj (Except.ok.inj hr)
    obtain rfl := enter_eq_ok hb
    obtain ⟨hlength, hall⟩ := forall_of_readManyOnto (h b rfl) (List.forall_mem_nil _) hitems
    have hcount : items.length = n := hlength.trans (Nat.zero_add n)
    exact Value.writable_list (hcount ▸ hmeasured) hall
  | map n =>
    obtain ⟨b, hb, hr⟩ := exists_of_bind_eq_ok hr
    obtain ⟨⟨fields, rest'⟩, hfields, hr⟩ := exists_of_bind_eq_ok hr
    obtain ⟨rfl, -⟩ := Prod.mk.inj (Except.ok.inj hr)
    obtain rfl := enter_eq_ok hb
    obtain ⟨hordered, hlength, hall⟩ :=
      fields_of_readEntries (h b rfl) .nil (List.forall_mem_nil _) hfields
    have hcount : fields.length ≤ n := Nat.zero_add n ▸ hlength
    exact Value.writable_object hordered (Nat.lt_of_le_of_lt hcount hmeasured) hall
  | nil | bool | unsigned | signed | float | text | bytes | extension =>
    obtain ⟨⟨item, rest'⟩, hitem, hr⟩ := exists_of_bind_eq_ok hr
    obtain ⟨v', hv, hr⟩ := exists_of_bind_eq_ok hr
    obtain ⟨rfl, -⟩ := Prod.mk.inj (Except.ok.inj hr)
    exact writable_of_valueOfItem (short_of_item hmeasured hitem) hv budget

/-- Whatever is read as a value can be written, and read back within the same budget. -/
theorem writable_of_readValue {v : Value} (h : readValue budget bs = .ok (v, rest)) :
    v.Writable budget := by
  induction budget generalizing bs v rest with
  | zero => exact writable_of_readValueWith (fun b hb => absurd hb.symm (Nat.succ_ne_zero b)) h
  | succ budget ih =>
    refine writable_of_readValueWith (fun b hb bs v rest hv => ?_) h
    obtain rfl := Nat.succ.inj hb
    exact ih hv

end MessagePack

/-! ## What is parsed can be sent -/

namespace Frame

theorem of_check {header header' : Header} (h : header.check = .ok header') :
    header' = header ∧ header.protocol = protocolTag ∧ header.version ≤ protocolVersion := by
  rw [Header.check, Header.validate] at h
  split at h
  · obtain rfl := Except.ok.inj h
    rename_i hvalid
    split at hvalid
    · cases hvalid
    · rename_i hprotocol
      split at hvalid
      · cases hvalid
      · rename_i hversion
        exact ⟨rfl, Decidable.of_not_not hprotocol, UInt32.not_lt.1 hversion⟩
  · cases h

theorem writable_of_drain {done vs : List Value} {fuel : Nat} {d : Decoder}
    (hdone : ∀ v ∈ done, v.Writable maxDepth) (h : drain done fuel d = .ok vs) :
    ∀ v ∈ vs, v.Writable maxDepth := by
  induction fuel generalizing done d with
  | zero =>
    obtain rfl := Except.ok.inj h
    exact fun v hv => hdone v (List.mem_reverse.1 hv)
  | succ fuel ih =>
    rw [drain] at h
    split at h
    · rename_i v d' hv
      obtain ⟨got, more, rest, -, hread⟩ := Decoder.exists_of_pullFrom hv
      exact ih (List.forall_mem_cons.2 ⟨writable_of_readValue hread, hdone⟩) h
    · obtain rfl := Except.ok.inj h
      exact fun v hv => hdone v (List.mem_reverse.1 hv)
    · cases h

theorem sendable_of_parse {bs : Bytes} {f : Frame} (h : parse bs = .ok f) : f.Sendable := by
  rw [parse] at h
  split at h
  · rename_i header d hheader
    obtain ⟨vs, hvs, rfl⟩ := exists_of_map_eq_ok h
    obtain ⟨header', hpull, hcheck⟩ := exists_of_bind_eq_ok (Prod.mk.inj hheader).1
    obtain ⟨rfl, hprotocol, hversion⟩ := of_check hcheck
    obtain ⟨got, more, rest, -, hread⟩ := Decoder.exists_of_pullFrom (Prod.ext hpull rfl)
    exact ⟨hprotocol, hversion, Header.short_of_read hread,
      writable_of_drain (List.forall_mem_nil _) hvs⟩
  · cases h

/-- **Normal form.** Bytes in whatever form that are parsed as a frame give one that can be sent:
    its encoding is parsed as the same frame, and so encoded as the same bytes again. -/
theorem parse_encode_of_parse {bs : Bytes} {f : Frame} (h : parse bs = .ok f) :
    f.Sendable ∧ parse f.encode = .ok f ∧ ∀ g, parse f.encode = .ok g → g.encode = f.encode := by
  have hparse := parse_eq (sendable_of_parse h)
  refine ⟨sendable_of_parse h, hparse, fun g hg => ?_⟩
  obtain rfl := Except.ok.inj (hparse.symm.trans hg)
  rfl

/-- A frame in a form that nothing here writes. The header is a list with nil for its handler and
    its action as a byte string, the lengths and the version are wider than they have to be, one
    value is NaN in four octets, and the other a map in which a name comes twice, the second time
    as a byte string. -/
def looseBytes : Bytes :=
  [0xDC, 0x00, 0x05, 0xD9, 0x04, 0x74, 0x79, 0x70, 0x68, 0xCD, 0x00, 0x01,
    0xDB, 0x00, 0x00, 0x00, 0x01, 0x37,
    0xC4, 0x0B, 0x63, 0x6C, 0x69, 0x65, 0x6E, 0x74, 0x3A, 0x6F, 0x6E, 0x63, 0x65, 0xC0,
    0xCA, 0x7F, 0xC0, 0x00, 0x00,
    0xDF, 0x00, 0x00, 0x00, 0x02, 0xA1, 0x61, 0xD1, 0xFF, 0xFF, 0xC4, 0x01, 0x61, 0xD2, 0x00, 0x00,
    0x00, 0x05]

/-- The frame that these bytes are. -/
def looseFrame : Frame :=
  ⟨.new "7" .once, [.null, .object [("a", .int ⟨5, by decide, by decide⟩)]]⟩

theorem parse_encode_of_looseBytes :
    parse looseBytes = .ok looseFrame ∧ looseFrame.encode ≠ looseBytes ∧
      parse looseFrame.encode = .ok looseFrame := by
  have h : parse looseBytes = .ok looseFrame := rfl
  exact ⟨h, by decide +kernel, (parse_encode_of_parse h).2.1⟩

end Frame

end FrameRpc
