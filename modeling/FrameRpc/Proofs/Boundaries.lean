import FrameRpc.Proofs.Recognition
import FrameRpc.Proofs.SizeLimit

/-!
# Scanning and reading agree

Two parts of a decoder know where a value ends: the scan, which looks at markers and length fields
only, and the reader, which makes something of the value. They agree (`Decoder.boundaries_agree`),
whatever is read. What a reader takes is what the scan finds complete, and nothing less; and in
front of a value that the scan finds complete a reader does not look further: it reads the value or
refuses it, but never asks for more bytes.
-/

namespace FrameRpc

namespace MessagePack

section

variable {α : Type} {read : Reader α} {b : Bytes}

/-- What is read is what the scan finds complete, and before its last byte the scan finds it
    incomplete. -/
theorem Scan.advance_of_read (hread : Apportions .value read) (hword : b.length ≤ wordMax) {a : α}
    {rest : Bytes} (h : read b = .ok (a, rest)) :
    ∃ n, n ≤ b.length ∧ rest = b.drop n ∧ Scan.start.advance b = (.complete, ⟨n, 0⟩) ∧
      ∀ k < n, (Scan.start.advance (b.take k)).1 = .incomplete := by
  obtain ⟨w, rfl, hportion⟩ := hread b a rest h
  cases hportion with
  | value hw =>
    have hle : w.length ≤ (w ++ rest).length := by
      rw [List.length_append]
      exact Nat.le_add_right _ _
    have hw' : w.length ≤ wordMax := Nat.le_trans hle hword
    -- The scan keeps track of the value, and is complete only at its end.
    have htracks := Scan.tracks_start hw
    refine ⟨w.length, hle, List.drop_left.symm, ?_, fun k hk => ?_⟩
    · have hsplit : w ++ rest ++ [] = w ++ rest := List.append_nil _
      exact Scan.advance_of_le htracks hw' hsplit hle
    · rw [(Scan.advance_tracks htracks hw' (List.take_append_drop k (w ++ rest))).2]
      refine if_neg (Nat.not_le_of_lt ?_)
      exact Nat.lt_of_le_of_lt (List.length_take_le _ _) hk

/-- In front of a value a reader comes to the same with or without the bytes behind it. -/
theorem read_take_of_values (hread : Apportions .value read) (hsuffices : Suffices read)
    (hfront : FrontToBack read) {n : Nat} (hvalue : Values 1 (b.take n)) :
    (∃ a, read (b.take n) = .ok (a, []) ∧ read b = .ok (a, b.drop n)) ∨
      ∃ why, read (b.take n) = .error why ∧ read b = .error why ∧ why.isTruncation = false := by
  have hdone : ∀ why, read (b.take n) = .error why → why.isTruncation = false := fun why h =>
    hsuffices _ [] why hvalue (by rw [List.append_nil, h])
  have hlong := hfront.read_append hdone (b.drop n)
  rw [List.take_append_drop] at hlong
  cases hr : read (b.take n) with
  | ok x =>
    obtain ⟨a, rest⟩ := x
    obtain ⟨w, hsplit, hportion⟩ := hread _ a rest hr
    -- Of the value nothing is left over.
    have hwhole : w = b.take n :=
      hportion.eq_of_append (.value hvalue) (hsplit.symm.trans (List.append_nil _).symm)
    obtain rfl : rest = [] := by
      rw [hwhole] at hsplit
      exact List.self_eq_append_right.1 hsplit
    rw [hr] at hlong
    exact .inl ⟨a, rfl, hlong⟩
  | error why =>
    rw [hr] at hlong
    exact .inr ⟨why, rfl, hlong, hdone why hr⟩

end

end MessagePack

open MessagePack

namespace Decoder

/-- **Boundaries.** The scan and whatever serves a request for a value agree on where the value
    ends: what is read the scan finds complete, and no proper part of it; and of what the scan finds
    complete the reader makes the same with or without the bytes behind it, and does not ask for
    more. -/
theorem boundaries_agree {r : Request} (hr : Whole r) (hsates : Sates r)
    (hvalue : (serving r).framing = .value) {b : Bytes} (hword : b.length < wordMax) :
    (∀ a rest, (serving r).read b = .ok (a, rest) → ∃ n, n ≤ b.length ∧ rest = b.drop n ∧
        Scan.start.advance b = (.complete, ⟨n, 0⟩) ∧
        ∀ k < n, (Scan.start.advance (b.take k)).1 = .incomplete) ∧
      ∀ n, (Scan.start.advance b).1 = .complete → (Scan.start.advance b).2.reach = n →
        (∃ a, (serving r).read (b.take n) = .ok (a, []) ∧
            (serving r).read b = .ok (a, b.drop n)) ∨
          ∃ why, (serving r).read (b.take n) = .error why ∧ (serving r).read b = .error why ∧
            why.isTruncation = false := by
  have hread : Apportions .value (serving r).read := hvalue ▸ apportions_serving hr
  refine ⟨fun a rest => Scan.advance_of_read hread (Nat.le_of_lt hword), ?_⟩
  rintro n hcomplete rfl
  exact read_take_of_values hread (suffices_serving hsates) (frontToBack_serving r)
    (Scan.isValue_of_complete hword hcomplete).2.values

/-- A list of two octets, and nil behind it. -/
def octetsAndNil : Bytes := [0x92, 0x01, 0xCC, 0x80, 0xC0]

/-- A list of an octet and an extension, and nil behind it. -/
def mixedAndNil : Bytes := [0x92, 0x01, 0xC7, 0x01, 0x05, 0xFF, 0xC0]

/-- Both lists end where the scan says; octets are read from the first one only. -/
theorem boundaries_agree_octets :
    (∃ n, n ≤ octetsAndNil.length ∧ [0xC0] = octetsAndNil.drop n ∧
        Scan.start.advance octetsAndNil = (.complete, ⟨n, 0⟩) ∧
        ∀ k < n, (Scan.start.advance (octetsAndNil.take k)).1 = .incomplete) ∧
      ((∃ a, Shape.octets.read (mixedAndNil.take 6) = .ok (a, []) ∧
          Shape.octets.read mixedAndNil = .ok (a, mixedAndNil.drop 6)) ∨
        ∃ why, Shape.octets.read (mixedAndNil.take 6) = .error why ∧
          Shape.octets.read mixedAndNil = .error why ∧ why.isTruncation = false) := by
  have hread : Shape.octets.read octetsAndNil = .ok ([0x01, 0x80], [0xC0]) := by
    with_unfolding_all rfl
  exact ⟨(boundaries_agree (r := .pull (.next .octets)) trivial trivial rfl (by decide)).1 _ _ hread,
    (boundaries_agree (r := .pull (.next .octets)) trivial trivial rfl (by decide)).2 6
      (by decide +kernel) (by decide +kernel)⟩

end Decoder

end FrameRpc
