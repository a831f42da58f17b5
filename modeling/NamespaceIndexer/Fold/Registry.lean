import NamespaceIndexer.Fold.Codec

/-!
# The action registry

What an encodable action and an accepted body are, said without the codec, and
the bijection between the two that encoder and decoder compute.
-/

namespace NamespaceIndexer.Fold

/-! ### Well-formed actions -/

/-- An action as a caller of the encoder fills it in: the fields of its opcode meet their bounds,
and the others are zero. -/
def WellFormed (a : SmAction) : Prop :=
  match SmOp.ofByte? a.op with
  | some .COMMIT => a = { op := a.op, commitment := a.commitment }
  | some .CLAIM => smNameValid a.name ∧ a = { op := a.op, salt := a.salt, name := a.name }
  | some .RENEW =>
    a.anchor.toNat < 2 ^ 40 ∧ a.flags.length ≤ flagsMax ∧
      (a.hasAnchor = false → a.anchor = 0 ∧ a.flags = []) ∧
      a = { op := a.op, hasAnchor := a.hasAnchor, anchor := a.anchor, flags := a.flags }
  | some .TRANSFER =>
    a.anchor.toNat < 2 ^ 40 ∧ a.flags.length ≤ flagsXferMax ∧
      (a.hasAnchor = true ↔ 1 ≤ a.flags.length) ∧ (a.hasAnchor = false → a.anchor = 0) ∧
      a = { op := a.op, addr := a.addr, hasAnchor := a.hasAnchor, anchor := a.anchor,
            flags := a.flags }
  | some .SELL =>
    smNameValid a.name ∧ a = { op := a.op, price := a.price, window := a.window, name := a.name }
  | some .RENEW_NAME | some .RELEASE_NAME | some .RESERVE | some .SETTLE | some .PAY =>
    smNameValid a.name ∧ a = { op := a.op, name := a.name }
  | some .TRANSFER_NAME => smNameValid a.name ∧ a = { op := a.op, addr := a.addr, name := a.name }
  | some .RELEASE =>
    a.anchor.toNat < 2 ^ 40 ∧ 1 ≤ a.flags.length ∧ a.flags.length ≤ flagsMax ∧
      a = { op := a.op, hasAnchor := true, anchor := a.anchor, flags := a.flags }
  | some .SELL_TO =>
    smNameValid a.name ∧ a = { op := a.op, price := a.price, addr := a.addr, name := a.name }
  | some .AS => a = { op := a.op, asIndex := a.asIndex }
  | some .TRADE =>
    smNameValid a.name ∧ smNameValid a.nameB ∧
      a = { op := a.op, idxA := a.idxA, idxB := a.idxB, name := a.name, nameB := a.nameB }
  | none => False

theorem wellFormed_of_laidOut {a : SmAction} {b : Bytes} (h : LaidOut a b) : WellFormed a := by
  cases h with
  | commit => rfl
  | claim salt hn => exact ⟨hn, rfl⟩
  | renewAll => exact ⟨by decide, Nat.zero_le _, fun _ => ⟨rfl, rfl⟩, rfl⟩
  | renew ha hf => exact ⟨ha, hf, fun h => (by cases h), rfl⟩
  | transferAll addr =>
    have h0 : (0 : UInt64).toNat < 2 ^ 40 := by decide
    exact ⟨h0, Nat.zero_le _, ⟨fun h => (by cases h), fun h => (by cases h)⟩, fun _ => rfl, rfl⟩
  | transfer addr ha h1 hf => exact ⟨ha, hf, ⟨fun _ => h1, fun _ => rfl⟩, fun h => (by cases h), rfl⟩
  | sell price window hn => exact ⟨hn, rfl⟩
  | byName hop hn =>
    simp only [byNameOps, List.mem_cons, List.not_mem_nil, or_false] at hop
    rcases hop with rfl | rfl | rfl | rfl | rfl <;> exact ⟨hn, rfl⟩
  | transferName addr hn => exact ⟨hn, rfl⟩
  | release ha h1 hf => exact ⟨ha, h1, hf, rfl⟩
  | sellTo price addr hn => exact ⟨hn, rfl⟩
  | as => rfl
  | trade idxA idxB hn hnB => exact ⟨hn, hnB, rfl⟩

theorem LaidOut.of_action_eq {a a' : SmAction} {b : Bytes} (h : LaidOut a' b) (ha : a = a') :
    LaidOut a b := ha ▸ h

/-- A well-formed action has a layout. -/
theorem WellFormed.laidOut {a : SmAction} (h : WellFormed a) : ∃ b, LaidOut a b := by
  unfold WellFormed at h
  cases ho : SmOp.ofByte? a.op with
  | none =>
    rw [ho] at h
    exact h.elim
  | some o =>
    have hop : a.op = o.toByte := SmOp.ofByte?_eq_some.mp ho
    rw [ho] at h
    rw [hop] at h
    cases o with
    | RENEW_NAME => exact ⟨_, (LaidOut.byName (by decide) h.1).of_action_eq h.2⟩
    | RELEASE_NAME => exact ⟨_, (LaidOut.byName (by decide) h.1).of_action_eq h.2⟩
    | RESERVE => exact ⟨_, (LaidOut.byName (by decide) h.1).of_action_eq h.2⟩
    | SETTLE => exact ⟨_, (LaidOut.byName (by decide) h.1).of_action_eq h.2⟩
    | PAY => exact ⟨_, (LaidOut.byName (by decide) h.1).of_action_eq h.2⟩
    | COMMIT => exact ⟨_, (LaidOut.commit _).of_action_eq h⟩
    | CLAIM => exact ⟨_, (LaidOut.claim _ h.1).of_action_eq h.2⟩
    | SELL => exact ⟨_, (LaidOut.sell _ _ h.1).of_action_eq h.2⟩
    | TRANSFER_NAME => exact ⟨_, (LaidOut.transferName _ h.1).of_action_eq h.2⟩
    | SELL_TO => exact ⟨_, (LaidOut.sellTo _ _ h.1).of_action_eq h.2⟩
    | AS => exact ⟨_, (LaidOut.as _).of_action_eq h⟩
    | TRADE => exact ⟨_, (LaidOut.trade _ _ h.1 h.2.1).of_action_eq h.2.2⟩
    | RELEASE => exact ⟨_, (LaidOut.release h.1 h.2.1 h.2.2.1).of_action_eq h.2.2.2⟩
    | RENEW =>
      obtain ⟨ha, hf, hnone, heq⟩ := h
      cases hk : a.hasAnchor with
      | true =>
        rw [hk] at heq
        exact ⟨_, (LaidOut.renew ha hf).of_action_eq heq⟩
      | false =>
        obtain ⟨h0, hnil⟩ := hnone hk
        rw [hk, h0, hnil] at heq
        exact ⟨_, LaidOut.renewAll.of_action_eq heq⟩
    | TRANSFER =>
      obtain ⟨ha, hf, hiff, hnone, heq⟩ := h
      cases hk : a.hasAnchor with
      | true =>
        rw [hk] at heq
        exact ⟨_, (LaidOut.transfer _ ha (hiff.mp hk) hf).of_action_eq heq⟩
      | false =>
        have hnil : a.flags = [] := by
          rw [hk] at hiff
          cases hfl : a.flags with
          | nil => rfl
          | cons x xs => simp [hfl] at hiff
        rw [hk, hnone hk, hnil] at heq
        exact ⟨_, (LaidOut.transferAll _).of_action_eq heq⟩

/-! ### Bodies -/

/-- The body layouts of the registry. -/
def RegistryBody (b : Bytes) : SmOp → Prop
  | .RENEW_NAME | .RESERVE | .SETTLE | .RELEASE_NAME | .PAY => smNameValid b
  | .TRANSFER_NAME => ∃ target name, b = target ++ name ∧ target.length = 20 ∧ smNameValid name
  | .COMMIT => b.length = 32
  | .CLAIM => ∃ salt name, b = salt ++ name ∧ salt.length = 32 ∧ smNameValid name
  | .RENEW =>
    b = [] ∨ ∃ anchor flags, b = anchor ++ flags ∧ anchor.length = 5 ∧ flags.length ≤ flagsMax
  | .TRANSFER =>
    b.length = 20 ∨ ∃ target anchor flags, b = target ++ (anchor ++ flags) ∧ target.length = 20 ∧
      anchor.length = 5 ∧ 1 ≤ flags.length ∧ flags.length ≤ flagsXferMax
  | .SELL =>
    ∃ price window name, b = price ++ (window ++ name) ∧ price.length = 8 ∧ window.length = 4 ∧
      smNameValid name
  | .RELEASE =>
    ∃ anchor flags, b = anchor ++ flags ∧ anchor.length = 5 ∧ 1 ≤ flags.length ∧
      flags.length ≤ flagsMax
  | .SELL_TO =>
    ∃ price buyer name, b = price ++ (buyer ++ name) ∧ price.length = 8 ∧ buyer.length = 20 ∧
      smNameValid name
  | .AS => b.length = 1
  | .TRADE =>
    ∃ idxA idxB nameA nameB, b = idxA :: idxB :: (nameA ++ 0x2C :: nameB) ∧ smNameValid nameA ∧
      smNameValid nameB

/-- The payloads the registry knows. -/
def Registered (p : Bytes) : Prop :=
  ∃ o : SmOp, ∃ b : Bytes, p = actionHeader o.toByte ++ b ∧ RegistryBody b o

theorem registryBody_of_laidOut {a : SmAction} {b : Bytes} (h : LaidOut a b) :
    ∃ o : SmOp, a.op = o.toByte ∧ RegistryBody b o := by
  cases h with
  | commit c => exact ⟨.COMMIT, rfl, c.property⟩
  | claim salt hn => exact ⟨.CLAIM, rfl, _, _, rfl, salt.property, hn⟩
  | renewAll => exact ⟨.RENEW, rfl, Or.inl rfl⟩
  | renew ha hf => exact ⟨.RENEW, rfl, Or.inr ⟨_, _, rfl, length_wr5 _, hf⟩⟩
  | transferAll addr => exact ⟨.TRANSFER, rfl, Or.inl addr.property⟩
  | transfer addr ha h1 hf =>
    exact ⟨.TRANSFER, rfl, Or.inr ⟨_, _, _, rfl, addr.property, length_wr5 _, h1, hf⟩⟩
  | sell price window hn =>
    exact ⟨.SELL, rfl, _, _, _, rfl, length_wr64 price, length_wr32 window, hn⟩
  | byName hop hn =>
    simp only [byNameOps, List.mem_cons, List.not_mem_nil, or_false] at hop
    rcases hop with rfl | rfl | rfl | rfl | rfl
    · exact ⟨.RENEW_NAME, rfl, hn⟩
    · exact ⟨.RESERVE, rfl, hn⟩
    · exact ⟨.SETTLE, rfl, hn⟩
    · exact ⟨.RELEASE_NAME, rfl, hn⟩
    · exact ⟨.PAY, rfl, hn⟩
  | transferName addr hn => exact ⟨.TRANSFER_NAME, rfl, _, _, rfl, addr.property, hn⟩
  | release ha h1 hf => exact ⟨.RELEASE, rfl, _, _, rfl, length_wr5 _, h1, hf⟩
  | sellTo price addr hn =>
    exact ⟨.SELL_TO, rfl, _, _, _, rfl, length_wr64 price, addr.property, hn⟩
  | as => exact ⟨.AS, rfl, rfl⟩
  | trade idxA idxB hn hnB => exact ⟨.TRADE, rfl, _, _, _, _, rfl, hn, hnB⟩

/-- Any five bytes are the anchor they are read as. -/
theorem exists_anchor {b : Bytes} (h : b.length = 5) : ∃ v : UInt64, v.toNat < 2 ^ 40 ∧ wr5 v = b :=
  ⟨rd5 b, rd5_lt h.ge, by rw [wr5_rd5 h.ge, List.take_of_length_le h.le]⟩

theorem laidOut_of_registryBody {b : Bytes} {o : SmOp} (h : RegistryBody b o) :
    ∃ a, a.op = o.toByte ∧ LaidOut a b := by
  cases o with
  | RENEW_NAME => exact ⟨_, rfl, .byName (by decide) h⟩
  | RELEASE_NAME => exact ⟨_, rfl, .byName (by decide) h⟩
  | RESERVE => exact ⟨_, rfl, .byName (by decide) h⟩
  | SETTLE => exact ⟨_, rfl, .byName (by decide) h⟩
  | PAY => exact ⟨_, rfl, .byName (by decide) h⟩
  | COMMIT => exact ⟨_, rfl, .commit ⟨b, h⟩⟩
  | CLAIM =>
    obtain ⟨salt, name, rfl, hs, hn⟩ := h
    exact ⟨_, rfl, .claim ⟨salt, hs⟩ hn⟩
  | TRANSFER_NAME =>
    obtain ⟨target, name, rfl, ht, hn⟩ := h
    exact ⟨_, rfl, .transferName ⟨target, ht⟩ hn⟩
  | RENEW =>
    rcases h with rfl | ⟨anchor, flags, rfl, ha, hf⟩
    · exact ⟨_, rfl, .renewAll⟩
    · obtain ⟨v, hv, rfl⟩ := exists_anchor ha
      exact ⟨_, rfl, .renew hv hf⟩
  | TRANSFER =>
    rcases h with h | ⟨target, anchor, flags, rfl, ht, ha, h1, hf⟩
    · exact ⟨_, rfl, .transferAll ⟨b, h⟩⟩
    · obtain ⟨v, hv, rfl⟩ := exists_anchor ha
      exact ⟨_, rfl, .transfer ⟨target, ht⟩ hv h1 hf⟩
  | SELL =>
    obtain ⟨price, window, name, rfl, hp, hw, hn⟩ := h
    have h64 : wr64 (rd64 price) = price := by rw [wr64_rd64 hp.ge, List.take_of_length_le hp.le]
    have h32 : wr32 (rd32 window) = window := by
      rw [wr32_rd32 hw.ge, List.take_of_length_le hw.le]
    have hl := LaidOut.sell (rd64 price) (rd32 window) hn
    rw [h64, h32] at hl
    exact ⟨_, rfl, hl⟩
  | RELEASE =>
    obtain ⟨anchor, flags, rfl, ha, h1, hf⟩ := h
    obtain ⟨v, hv, rfl⟩ := exists_anchor ha
    exact ⟨_, rfl, .release hv h1 hf⟩
  | SELL_TO =>
    obtain ⟨price, buyer, name, rfl, hp, hb, hn⟩ := h
    have h64 : wr64 (rd64 price) = price := by rw [wr64_rd64 hp.ge, List.take_of_length_le hp.le]
    have hl := LaidOut.sellTo (rd64 price) ⟨buyer, hb⟩ hn
    rw [h64] at hl
    exact ⟨_, rfl, hl⟩
  | AS =>
    obtain ⟨k, rfl⟩ := List.length_eq_one_iff.mp h
    exact ⟨_, rfl, .as k⟩
  | TRADE =>
    obtain ⟨idxA, idxB, nameA, nameB, rfl, hn, hnB⟩ := h
    exact ⟨_, rfl, .trade idxA idxB hn hnB⟩

/-! ### The bijection -/

theorem smDecodePayload_of_laidOut {a : SmAction} {b : Bytes} (h : LaidOut a b) :
    smDecodePayload (actionHeader a.op ++ b) = (.ACTION, a) := by
  have hdec := decodeAction_of_laidOut h
  simp only [actionHeader, smDecodePayload, List.cons_append, List.nil_append, hdec]

/-- An accepted payload is a header and the layout of the action it decodes to. -/
theorem laidOut_of_smDecodePayload {p : Bytes} (h : (smDecodePayload p).1 = .ACTION) :
    ∃ b, p = actionHeader (smDecodePayload p).2.op ++ b ∧ LaidOut (smDecodePayload p).2 b := by
  unfold smDecodePayload at h ⊢
  split at h
  · rename_i op b
    cases hd : decodeAction b op with
    | none =>
      rw [hd] at h
      cases h
    | some a =>
      have hl := laidOut_of_decodeAction hd
      have hop : a.op = op := op_of_decodeAction hd
      refine ⟨b, ?_, ?_⟩
      · simp only [hop]
        rfl
      · simpa only [hd] using hl
  · cases h

theorem decode_action_iff (p : Bytes) : (smDecodePayload p).1 = .ACTION ↔ Registered p := by
  constructor
  · intro h
    obtain ⟨b, hp, hl⟩ := laidOut_of_smDecodePayload h
    obtain ⟨o, ho, hb⟩ := registryBody_of_laidOut hl
    exact ⟨o, b, by rw [← ho, ← hp], hb⟩
  · rintro ⟨o, b, rfl, hb⟩
    obtain ⟨a, ha, hl⟩ := laidOut_of_registryBody hb
    rw [← ha, smDecodePayload_of_laidOut hl]

/-- Encoder and decoder are inverse to each other between the well-formed actions and the payloads
of the registry, and every other payload is ignored. -/
theorem codec_bijection :
    (∀ a, WellFormed a → smDecodePayload (smEncodeAction a) = (.ACTION, a)) ∧
      (∀ p, (smDecodePayload p).1 = .ACTION →
        WellFormed (smDecodePayload p).2 ∧ smEncodeAction (smDecodePayload p).2 = p) ∧
      ∀ p, ((smDecodePayload p).1 = .ACTION ↔ Registered p) ∧
        ((smDecodePayload p).1 = .IGNORE ↔ ¬Registered p) := by
  refine ⟨?_, ?_, ?_⟩
  · intro a ha
    obtain ⟨b, hl⟩ := ha.laidOut
    rw [smEncodeAction_of_laidOut hl, smDecodePayload_of_laidOut hl]
  · intro p hp
    obtain ⟨b, hb, hl⟩ := laidOut_of_smDecodePayload hp
    exact ⟨wellFormed_of_laidOut hl, by rw [smEncodeAction_of_laidOut hl, ← hb]⟩
  · intro p
    refine ⟨decode_action_iff p, ?_⟩
    rw [← decode_action_iff p]
    cases (smDecodePayload p).1 <;> simp

end NamespaceIndexer.Fold
