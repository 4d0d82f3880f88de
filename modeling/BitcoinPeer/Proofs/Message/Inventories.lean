import BitcoinPeer.Message.Catalog
import BitcoinPeer.Proofs.Chain.Encoding

/-!
# Inventories that fit a payload

The number of entries that a payload is said to hold sets eight bytes aside for their count, which is
written in one to nine bytes. Below 2³² entries five are enough, and without any entries one; so lists
of that number fit, and those with two entries more never do.
-/

namespace BitcoinPeer

theorem CompactSize.length_encode_le_five {n : UInt64} (h : n.toNat ≤ 0xffffffff) :
    (encode n).length ≤ 5 := by
  rw [length_encode, length]
  split_ifs <;> omega

namespace Inventory

variable {entries : List Inventory} {limit : Nat}

/-- What is announced to fit a payload does, its count included. -/
theorem length_encode_le_of_maxElements (hpos : 1 ≤ limit) (hlimit : limit ≤ 0xffffffff)
    (h : entries.length ≤ maxElements limit) : (Codec.encode entries).length ≤ limit := by
  rw [length_encode_list]
  cases entries with
  | nil => exact hpos
  | cons entry entries =>
    rw [maxElements, size, Nat.le_div_iff_mul_le (by decide)] at h
    have hcount := CompactSize.length_encode_le_five
      (n := UInt64.ofNat (entry :: entries).length)
      (by rw [UInt64.toNat_ofNat_of_lt' (by rw [UInt64.size]; omega)]; omega)
    rw [size]
    rw [List.length_cons] at h hcount ⊢
    omega

/-- The estimate is short of what fits by no more than one entry. -/
theorem lt_length_encode_of_maxElements (h : maxElements limit + 1 < entries.length) :
    limit < (Codec.encode entries).length := by
  rw [length_encode_list, size]
  rw [maxElements, size] at h
  omega

end Inventory

/-- **Inventories fit**: the payload of a message with no more entries than is said to fit a limit is
within the limit, and with two entries more it is not. -/
theorem inventories_fit (limit : UInt32) (h : 1 ≤ limit.toNat) (entries : List Inventory) :
    ∀ m ∈ [Message.inv entries, .getData entries, .notFound entries],
      (entries.length ≤ Inventory.maxElements limit.toNat → m.encodePayload.length ≤ limit.toNat) ∧
      (Inventory.maxElements limit.toNat + 1 < entries.length →
        limit.toNat < m.encodePayload.length) := by
  intro m hm
  have hpayload : m.encodePayload = Codec.encode entries := by
    simp only [List.mem_cons, List.not_mem_nil, or_false] at hm
    rcases hm with rfl | rfl | rfl <;> rfl
  rw [hpayload]
  have hlimit : limit.toNat ≤ 0xffffffff := Nat.le_of_lt_succ limit.toNat_lt
  exact ⟨Inventory.length_encode_le_of_maxElements h hlimit,
    Inventory.lt_length_encode_of_maxElements⟩

/-- The count of 65536 entries takes five bytes, and the eight set aside are enough. -/
theorem inventories_fit_five :
    1 ≤ (2359304 : UInt32).toNat ∧
      (Message.inv (List.replicate 65536 ⟨.tx, Hash256.zero⟩)).encodePayload.length ≤ 2359304 := by
  have hlength : (List.replicate 65536 (Inventory.mk .tx Hash256.zero)).length ≤
      Inventory.maxElements (2359304 : UInt32).toNat := by
    rw [List.length_replicate]
    decide
  exact ⟨by decide, (inventories_fit 2359304 (by decide) _ _ List.mem_cons_self).1 hlength⟩

end BitcoinPeer
