import NamespaceIndexer.Daemon.Ports
import NamespaceIndexer.Daemon.Pushes

/-!
# Carriers (`adapter.c`, `wire.py`, `decode.ts`)

From a script to the action it carries, as the daemon, the Python and the TypeScript port compute
it.
-/

namespace NamespaceIndexer.Daemon

open Fold Lib

/-- `idx_op_return_payload`, then `sm_decode_payload`. -/
def daemonCarrier (spk : Bytes) : Option SmAction := (idxOpReturnPayload spk).bind daemonAction

def pyCarrier (spk : Bytes) : Option Py.Info := (Py.singleMinimalPush spk).bind Py.decodePayload

def tsCarrier (spk : Bytes) : Option Ts.Action := (Ts.singleMinimalPush spk).bind Ts.decodePayload

/-- The same kind, and the same action in the port's terms. -/
structure Agrees {α : Type} (view : SmAction → Option α) (a : Option SmAction) (d : Option α) :
    Prop where
  kind : a.isSome = d.isSome
  action : a.bind view = d

/-- A pushed payload of more than 80 bytes with the opcode of a bitmap action. -/
def LongBitmap (spk : Bytes) : Prop :=
  ∃ payload, spk = opReturn payload ∧ 80 < payload.length ∧ payload.length ≤ carrierMax ∧
    ∃ op b, payload = 0xFF :: 0x50 :: 0x4E :: op :: b ∧ op ∈ ([0x05, 0x06, 0x0A] : List Byte)

theorem agrees_bind {α : Type} {view : SmAction → Option α}
    (hview : ∀ {payload a}, daemonAction payload = some a → (view a).isSome) (p : Option Bytes) :
    Agrees view (p.bind daemonAction) (p.bind fun payload => (daemonAction payload).bind view) := by
  cases p with
  | none => exact ⟨rfl, rfl⟩
  | some payload =>
    simp only [Option.bind_some]
    cases ha : daemonAction payload with
    | none => exact ⟨rfl, rfl⟩
    | some a => exact ⟨(hview ha).symm, rfl⟩

theorem pyCarrier_agrees (spk : Bytes) : Agrees pyInfo (daemonCarrier spk) (pyCarrier spk) := by
  have hfun : Py.decodePayload = fun payload => (daemonAction payload).bind pyInfo :=
    funext Py.decodePayload_eq
  unfold daemonCarrier pyCarrier
  rw [idxOpReturnPayload_eq, Py.singleMinimalPush_eq, hfun]
  by_cases hbare : spk = [0x6A]
  · rw [hbare]
    exact ⟨rfl, rfl⟩
  by_cases hzero : spk = [0x6A, 0]
  · rw [hzero]
    exact ⟨rfl, rfl⟩
  · rw [if_neg hbare, if_neg hzero]
    exact agrees_bind pyView_isSome _

theorem longBitmap_iff (spk : Bytes) :
    LongBitmap spk ↔ ∃ payload, lonePush carrierMax spk = some payload ∧ 80 < payload.length ∧
      (daemonAction payload).isSome := by
  have hmax : carrierMax < 65536 := by decide
  constructor
  · rintro ⟨payload, hspk, hlong, hle, op, b, rfl, hop⟩
    refine ⟨_, (lonePush_iff hmax).mpr ⟨hspk, by omega, hle⟩, hlong, ?_⟩
    rw [daemonAction_magic]
    simp only [List.length_cons] at hlong hle
    exact (decodeAction_long (by omega) (by unfold bodyMax; omega)).mpr hop
  · rintro ⟨payload, hpush, hlong, hact⟩
    obtain ⟨hspk, -, hle⟩ := (lonePush_iff hmax).mp hpush
    obtain ⟨a, ha⟩ := Option.isSome_iff_exists.mp hact
    obtain ⟨op, b, rfl, hdec⟩ := decodeAction_of_daemonAction ha
    refine ⟨_, hspk, hlong, hle, op, b, rfl, ?_⟩
    simp only [List.length_cons] at hlong hle
    exact (decodeAction_long (by omega) (by unfold bodyMax; omega)).mp
      (Option.isSome_iff_exists.mpr ⟨a, hdec⟩)

theorem tsCarrier_agrees (spk : Bytes) :
    Agrees tsAction (daemonCarrier spk) (tsCarrier spk) ↔ ¬ LongBitmap spk := by
  have hfun : Ts.decodePayload = fun payload => (daemonAction payload).bind tsAction :=
    funext Ts.decodePayload_eq
  have hle : 80 ≤ carrierMax := by decide
  unfold daemonCarrier tsCarrier
  rw [idxOpReturnPayload_eq, Ts.singleMinimalPush_eq, hfun, longBitmap_iff, lonePush_le hle]
  by_cases hbare : spk = [0x6A]
  · rw [hbare]
    exact ⟨fun _ ⟨_, hpush, _⟩ => absurd hpush (by simp [lonePush]), fun _ => ⟨rfl, rfl⟩⟩
  rw [if_neg hbare]
  cases hpush : lonePush carrierMax spk with
  | none => exact ⟨fun _ ⟨_, hc, _⟩ => absurd hc (by simp), fun _ => ⟨rfl, rfl⟩⟩
  | some payload =>
    rw [Option.filter_some]
    by_cases hshort : payload.length ≤ 80
    · rw [if_pos (decide_eq_true hshort)]
      refine ⟨fun _ ⟨p, hp, hlong, _⟩ => ?_, fun _ => agrees_bind tsView_isSome _⟩
      cases hp
      omega
    · rw [if_neg (by rw [decide_eq_true_iff]; exact hshort)]
      constructor
      · rintro hagrees ⟨p, hp, -, hact⟩
        cases hp
        have hkind := hagrees.kind
        rw [Option.bind_some, hact] at hkind
        exact absurd hkind (by simp)
      · intro hnot
        have hnone : daemonAction payload = none := by
          by_contra hsome
          exact hnot ⟨payload, rfl, by omega, Option.isSome_iff_ne_none.mpr hsome⟩
        rw [Option.bind_some, hnone]
        exact ⟨rfl, rfl⟩

/-- The daemon and the Python port read the same action off every script; with the TypeScript
port they do exactly where no bitmap action of more than 80 bytes is pushed. -/
theorem carrier_extraction (spk : Bytes) :
    Agrees pyInfo (daemonCarrier spk) (pyCarrier spk) ∧
    (Agrees pyInfo (daemonCarrier spk) (pyCarrier spk) ∧
        Agrees tsAction (daemonCarrier spk) (tsCarrier spk) ↔ ¬ LongBitmap spk) := by
  refine ⟨pyCarrier_agrees spk, ?_⟩
  rw [tsCarrier_agrees]
  exact and_iff_right (pyCarrier_agrees spk)

/-- A RENEW of 72 flag bytes, in a payload of 81 bytes. -/
def longRenew : Bytes :=
  opReturn (0xFF :: 0x50 :: 0x4E :: 0x05 :: (List.replicate 5 0 ++ List.replicate 72 1))

theorem carrier_split :
    ((daemonCarrier longRenew).bind pyInfo = pyCarrier longRenew ∧
      (daemonCarrier longRenew).isSome ∧ tsCarrier longRenew = none) ∧
    ¬ ∀ spk, Agrees pyInfo (daemonCarrier spk) (pyCarrier spk) ∧
      Agrees tsAction (daemonCarrier spk) (tsCarrier spk) := by
  have hsome : (daemonCarrier longRenew).isSome = true := by decide +kernel
  have hts : tsCarrier longRenew = none := by decide +kernel
  refine ⟨⟨(pyCarrier_agrees longRenew).action, hsome, hts⟩, fun hall => ?_⟩
  have hkind := (hall longRenew).2.kind
  rw [hsome, hts] at hkind
  exact absurd hkind (by simp)

end NamespaceIndexer.Daemon
