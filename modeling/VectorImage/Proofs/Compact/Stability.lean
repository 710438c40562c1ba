import VectorImage.Compact.Tables
import VectorImage.Proofs.Input.Reading

/-!
Readers that more input does not disturb. What such a reader yields, it yields again when further
tokens follow, and it leaves those tokens behind what it left before. Counts are checked against
the bytes that remain, so they are not read alike whatever follows; but more bytes only make room.
The readers of the tables and of the document are of this kind.
-/

set_option autoImplicit false
set_option relaxedAutoImplicit false

namespace VectorImage

namespace Input

variable {τ : Type}

/-- The same place in the input, with more tokens at its end. -/
def followedBy (i : Input τ) (more : List τ) : Input τ := ⟨i.offset, i.rest ++ more⟩

end Input

namespace Parser

variable {τ ε α β : Type}

/-- What `p` reads, it reads again when more tokens follow. -/
def Stable (p : Parser τ ε α) : Prop :=
  ∀ (i j : Input τ) (a : α), p.run i = .ok (a, j) → ∀ more,
    p.run (i.followedBy more) = .ok (a, j.followedBy more)

theorem splitExactly_more {n : Nat} {rest taken left : List τ}
    (h : splitExactly n rest = some (taken, left)) (more : List τ) :
    splitExactly n (rest ++ more) = some (taken, left ++ more) := by
  obtain ⟨rfl, rfl⟩ := splitExactly_eq_some h
  rw [List.append_assoc]
  exact splitExactly_append taken (left ++ more)

namespace Stable

variable {p : Parser τ ε α} {f : α → Parser τ ε β}

theorem pure (a : α) : (pure a : Parser τ ε α).Stable := by
  intro i j b h more
  obtain ⟨rfl, rfl⟩ := run_pure_eq_ok.mp h
  rfl

theorem fail (e : ε) : (fail e : Parser τ ε α).Stable := fun _ _ _ h => nomatch h

theorem ofExcept (x : Except ε α) : (ofExcept x : Parser τ ε α).Stable := by
  cases x with
  | error e => exact fail e
  | ok a => exact pure a

theorem bind (hp : p.Stable) (hf : ∀ a, (f a).Stable) : (p >>= f).Stable := by
  intro i k b h more
  obtain ⟨a, j, ha, hb⟩ := run_bind_eq_ok.mp h
  exact run_bind_eq_ok.mpr ⟨a, _, hp i j a ha more, hf a j k b hb more⟩

theorem map (g : α → β) (hp : p.Stable) : (g <$> p).Stable :=
  bind hp fun a => pure (g a)

theorem ite {c : Prop} [Decidable c] {q : Parser τ ε α} (hp : p.Stable) (hq : q.Stable) :
    (if c then p else q).Stable := by
  split
  · exact hp
  · exact hq

theorem takeExactly (n : Nat) (short : Input τ → ε) : (takeExactly n short).Stable := by
  intro i j taken h more
  simp only [Parser.takeExactly] at h
  split at h
  · next taken' left hs =>
    cases h
    simp only [Parser.takeExactly, Input.followedBy, splitExactly_more hs more]
  · cases h

theorem replicate (hp : p.Stable) (n : Nat) : (replicate p n).Stable := by
  induction n with
  | zero => exact pure []
  | succ n ih => exact hp.bind fun a => ih.bind fun rest => pure (a :: rest)

/-- What a list is read as, it is read as with more at its end. -/
theorem parse (hp : p.Stable) {tokens : List τ} {a : α} (h : p.parse tokens = .ok a)
    (more : List τ) : p.parse (tokens ++ more) = .ok a := by
  obtain ⟨j, hrun⟩ := parse_eq_ok.mp h
  exact parse_eq_ok.mpr ⟨_, hp _ j a hrun more⟩

end Stable

end Parser

namespace Compact

variable {α : Type}

open VectorImage.Parser (Stable)

theorem readBytes_stable (n : Nat) : (readBytes n).Stable := .takeExactly n _

theorem readWord_stable (k : Nat) : (readWord k).Stable := (readBytes_stable k).map _

theorem readByte_stable : readByte.Stable := (readWord_stable 1).map _

theorem readU32_stable : readU32.Stable := (readWord_stable 4).map _

theorem readBinary64_stable : readBinary64.Stable := (readWord_stable 8).map _

theorem readFloat_stable (width : FloatWidth) : (readFloat width).Stable := by
  cases width with
  | binary32 => exact (readWord_stable 4).map _
  | binary64 => exact readBinary64_stable

theorem readDigits_stable (groups : Nat) (shift value : UInt32) :
    (readDigits groups shift value).Stable := by
  induction groups generalizing shift value with
  | zero => exact .fail _
  | succ groups ih =>
    refine readByte_stable.bind fun b => ?_
    have hrest (value : UInt32) : (if b &&& 0x80 = 0 then pure value
        else readDigits groups (shift + 7) value : Reader UInt32).Stable :=
      .ite (.pure _) (ih _ _)
    exact .ite (c := shift = 28 ∧ 0x0f < b.toUInt32 &&& 0x7f)
      ((Stable.fail _).bind fun _ => hrest _) (hrest _)

theorem readVarint_stable : readVarint.Stable := readDigits_stable 5 0 0

/-- The bytes that a count is checked against are still there when more follow. -/
theorem readCount_stable : readCount.Stable := by
  intro i k count h more
  obtain ⟨n, j, hn, h⟩ := Parser.run_bind_eq_ok.mp h
  obtain ⟨j', _, hinput, h⟩ := Parser.run_bind_eq_ok.mp h
  cases hinput
  refine Parser.run_bind_eq_ok.mpr ⟨n, _, readVarint_stable i j n hn more, ?_⟩
  refine Parser.run_bind_eq_ok.mpr ⟨_, _, rfl, ?_⟩
  cases hsplit : Parser.splitExactly n.toNat j.rest with
  | none =>
    rw [hsplit] at h
    cases h
  | some p =>
    rw [hsplit] at h
    obtain ⟨rfl, rfl⟩ := Parser.run_pure_eq_ok.mp h
    rw [Input.followedBy, Parser.splitExactly_more hsplit more]
    rfl

theorem readRaster_stable : readRaster.Stable :=
  readU32_stable.bind fun _ => readU32_stable.bind fun _ => readCount_stable.bind fun length =>
    (readBytes_stable length).bind fun _ => .pure _

theorem readString_stable : readString.Stable := by
  refine readCount_stable.bind fun length => (readBytes_stable length).bind fun bytes => ?_
  cases Utf8.decode bytes with
  | ok s => exact .pure s
  | error fault => exact .fail _

theorem readFloats_stable (width : FloatWidth) (n : Nat) : (readFloats width n).Stable :=
  .replicate (readFloat_stable width) n

theorem readFloatList_stable (width : FloatWidth) : (readFloatList width).Stable :=
  readCount_stable.bind (readFloats_stable width)

theorem readAffine_stable (width : FloatWidth) : (readAffine width).Stable :=
  (readFloat_stable width).bind fun _ => (readFloat_stable width).bind fun _ =>
    (readFloat_stable width).bind fun _ => (readFloat_stable width).bind fun _ =>
      (readFloat_stable width).bind fun _ => (readFloat_stable width).bind fun _ => .pure _

theorem readPath_stable (width : FloatWidth) : (readPath width).Stable := by
  have hverb : readVerb.Stable := readByte_stable.bind fun _ => .ofExcept _
  exact readCount_stable.bind fun n => (Stable.replicate hverb n).bind fun _ =>
    (readFloats_stable width _).bind fun _ => .ofExcept _

theorem readTable_stable [Keyed α] {read : Reader α} (hread : read.Stable) (n : Nat)
    (t : CanonicalTable α) : (readTable read n t).Stable := by
  induction n generalizing t with
  | zero => exact .pure t
  | succ n ih => exact hread.bind fun v => (Stable.ofExcept _).bind fun p => ih p.1

theorem readCounted_stable [Keyed α] {read : Reader α} (hread : read.Stable) :
    (readCounted read).Stable :=
  readCount_stable.bind fun n => readTable_stable hread n .empty

theorem readTables_stable (width : FloatWidth) : (readTables width).Stable :=
  (readCounted_stable readRaster_stable).bind fun _ =>
    (readCounted_stable readString_stable).bind fun _ =>
      (readCounted_stable (readFloatList_stable width)).bind fun _ =>
        (readCounted_stable (readAffine_stable width)).bind fun _ =>
          (readCounted_stable (readPath_stable width)).bind fun _ => .pure _

theorem readOption_stable {read : Reader α} (present : Bool) (hread : read.Stable) :
    (readOption present read).Stable := .ite (hread.map some) (.pure none)

theorem readDocument_stable : readDocument.Stable := by
  have hrect : readRect.Stable :=
    readBinary64_stable.bind fun _ => readBinary64_stable.bind fun _ =>
      readBinary64_stable.bind fun _ => readBinary64_stable.bind fun _ => .pure _
  have hcolor : readColor.Stable := readU32_stable.map _
  exact readByte_stable.bind fun _ => (readOption_stable _ readBinary64_stable).bind fun _ =>
    (readOption_stable _ readBinary64_stable).bind fun _ => (readOption_stable _ hrect).bind fun _ =>
      (readOption_stable _ hcolor).bind fun _ => .pure _

end Compact

end VectorImage
