import Lightning.Proof.Flow

/-!
# Reads that come short

Both classes fill a buffer of `amount` zeros and return all of it, so a read that ends before the
buffer is full hands out zeros that the peer never sent. `PlainStream::read` throws in other cases,
and then drops what it has taken. The theorems say when: in terms of what `leftoverBuffer` holds and
what the socket delivers before it pauses.
-/

namespace Lightning

open PlainStream Socket

namespace PlainStream

variable {amount : ℕ} {s : Stream}

theorem leftoverSize_le (s : Stream) : leftoverSize s ≤ s.leftoverBuffer.length := by
  unfold leftoverSize intOfSize Int.bmod
  dsimp only
  split_ifs <;> omega

theorem readInt_of_neg (negative : leftoverSize s < 0) : readInt amount s = none := by
  have nonempty : s.leftoverBuffer ≠ [] := by
    intro empty
    rw [leftoverSize, empty] at negative
    exact absurd negative (by decide)
  rw [readInt, readFromLeftoverInt, if_neg nonempty]
  dsimp only
  rw [if_pos (by split_ifs <;> omega), Option.map_none]

/-- `read` copies as much of `leftoverBuffer` as the converted size allows. -/
theorem readInt_of_nonneg {size : ℕ} (nonneg : leftoverSize s = size) :
    ∃ k, readInt amount s =
        some ((readResult amount (s.leftoverBuffer.take (min size amount) ++ s.socket.flow.1)
          s.socket.flow.2).map fun written => ⟨zeroFilled amount written, written.length⟩,
          { s with leftoverBuffer := s.leftoverBuffer.drop (min size amount), socket := k }) ∧
      s.socket.flow.1.take (amount - size) ++ k.incoming = s.socket.incoming := by
  have inside := leftoverSize_le s
  have copied : readFromLeftoverInt amount s = some (s.leftoverBuffer.take (min size amount),
      { s with leftoverBuffer := s.leftoverBuffer.drop (min size amount) }) := by
    rw [readFromLeftoverInt]
    by_cases hempty : s.leftoverBuffer = []
    · rw [if_pos hempty, hempty, List.take_nil, List.drop_nil, ← hempty]
    · rw [if_neg hempty, nonneg]
      dsimp only
      by_cases more : (amount : ℤ) > size
      · rw [if_pos more, if_neg (by omega), Int.toNat_natCast, Nat.min_eq_left (by omega)]
      · rw [if_neg more, if_neg (by omega), Int.toNat_natCast, Nat.min_eq_right (by omega)]
  have len : (s.leftoverBuffer.take (min size amount)).length = min size amount := by
    rw [List.length_take]
    omega
  obtain ⟨result, kept⟩ := @readLoopWritten_eq amount (amount + 1)
    (s.leftoverBuffer.take (min size amount)) s.socket (by omega) (by omega)
  have missing : amount - min size amount = amount - size := by omega
  rw [len, missing] at kept
  refine ⟨_, ?_, kept⟩
  rw [readInt, copied, Option.map_some]
  dsimp only
  rw [result]

end PlainStream

namespace IStream

/-- `read` with the conversions of `PlainStream`; `SSLStream` compares the sizes as they are. -/
def readInt (P : Platform) (amount : ℕ) (s : Stream) :
    Option (Except CppException Bytes × Stream) :=
  match s.transport with
  | .plain => (PlainStream.readInt amount s).map fun read =>
      (read.1.map ReadOutcome.buffer, read.2)
  | .ssl => some (SSLStream.read P amount s)

/-- A vector that is returned is the front of `leftoverBuffer` and the bytes that the socket
delivered meanwhile. -/
def Delivered (s : Stream) : Option (Except CppException Bytes × Stream) → Prop
  | none => False
  | some (.error _, _) => True
  | some (.ok buffer, s') => ∃ delivered,
      delivered ++ s'.socket.incoming = s.socket.incoming ∧ buffer <+: s.leftoverBuffer ++ delivered

/-- The end of the flow makes `read` throw: any error of `recv`, but for TLS the fatal ones. -/
def throwsAt (transport : Transport) (last : Option ℤ) : Bool :=
  match transport with
  | .plain => last.isSome
  | .ssl => SSLStream.sslError last = .ssl || SSLStream.sslError last = .syscall

/-- Enough bytes come before the pause, or the pause makes `read` throw. -/
def Complete (amount : ℕ) (s : Stream) : Prop :=
  amount ≤ (s.leftoverBuffer ++ s.socket.flow.1).length ∨
    throwsAt s.transport s.socket.flow.2 = true

/-- What saves a read when the size of `leftoverBuffer` does not fit an `int`: the converted size
covers the amount, or the read throws, or what comes from the socket happens to be what
`leftoverBuffer` holds. -/
def Wrapped (amount : ℕ) (s : Stream) : Prop :=
  0 ≤ leftoverSize s ∧
    (amount ≤ leftoverSize s ∨
      s.socket.flow.1.length + leftoverSize s < amount ∧ s.socket.flow.2 ≠ none ∨
      zeroFilled amount ((s.leftoverBuffer.take (leftoverSize s).toNat ++ s.socket.flow.1).take
        amount) = s.leftoverBuffer.take amount)

variable {P : Platform} {amount : ℕ} {s : Stream} {buffer delivered rest : Bytes}

theorem delivered_of_take {s' : Stream}
    (kept : s.socket.flow.1.take (amount - (s.leftoverBuffer.take amount).length) ++
      s'.socket.incoming = s.socket.incoming) :
    Delivered s (some
      (.ok ((s.leftoverBuffer.take amount ++ s.socket.flow.1).take amount), s')) := by
  refine ⟨_, kept, ?_⟩
  rw [List.take_append, List.take_take, Nat.min_self]
  by_cases served : amount ≤ s.leftoverBuffer.length
  · rw [List.length_take, Nat.min_eq_left served, Nat.sub_self, List.take_zero, List.append_nil,
      List.append_nil]
    exact List.take_prefix _ _
  · have all : s.leftoverBuffer.take amount = s.leftoverBuffer :=
      List.take_of_length_le (by omega)
    exact all.symm ▸ List.prefix_rfl

/-- A vector that is longer than everything that came holds something else. -/
theorem not_delivered_of_short {s' : Stream}
    (short : (s.leftoverBuffer ++ s.socket.flow.1).length < amount)
    (kept : s.socket.flow.1 ++ s'.socket.incoming = s.socket.incoming) (written : Bytes) :
    ¬ Delivered s (some (.ok (zeroFilled amount written), s')) := by
  rintro ⟨delivered, split, front⟩
  obtain rfl : delivered = s.socket.flow.1 := List.append_cancel_right (split.trans kept.symm)
  have len := front.length_le
  rw [length_zeroFilled] at len
  omega

theorem take_append_length (amount : ℕ) (a b : Bytes) :
    amount ≤ (a.take amount ++ b).length ↔ amount ≤ (a ++ b).length := by
  simp only [List.length_append, List.length_take]
  omega

theorem ssl_read_delivered_iff (ssl : s.transport = .ssl) :
    Delivered s (some (SSLStream.read P amount s)) ↔ Complete amount s := by
  have served : (s.leftoverBuffer.take amount).length ≥ amount ↔
      amount ≤ s.leftoverBuffer.length := by
    rw [List.length_take]
    omega
  rw [SSLStream.read, Stream.readFromLeftover_eq, Complete, ssl]
  dsimp only
  simp only [served]
  split_ifs with full
  · refine iff_of_true ⟨[], rfl, ?_⟩ (Or.inl ?_)
    · rw [List.append_nil]
      exact List.take_prefix _ _
    · rw [List.length_append]
      omega
  · have whole : s.leftoverBuffer.take amount = s.leftoverBuffer :=
      List.take_of_length_le (by omega)
    by_cases arrived : amount ≤ (s.leftoverBuffer ++ s.socket.flow.1).length
    · obtain ⟨buffer, kept⟩ := @SSLStream.readLoop_enough P amount (amount + 2)
        (s.leftoverBuffer.take amount) [] s.socket
        (by rw [List.append_nil, take_append_length]; exact arrived)
        (by rw [List.append_nil, List.length_take]; omega)
        (by rw [List.append_nil, whole]; omega)
      rw [List.append_nil] at buffer kept
      refine iff_of_true ?_ (Or.inl arrived)
      rw [buffer]
      cases (SSLStream.readLoop P amount (amount + 2) (s.leftoverBuffer.take amount) []
        s.socket).2.1 with
      | none => exact delivered_of_take kept
      | some e =>
        cases e with
        | ssl | syscall => exact trivial
        | wantRead | zeroReturn => exact delivered_of_take kept
    · have short : (s.leftoverBuffer ++ s.socket.flow.1).length < amount := Nat.lt_of_not_le arrived
      obtain ⟨buffer, error, kept⟩ := @SSLStream.readLoop_short P amount (amount + 2)
        (s.leftoverBuffer.take amount) [] s.socket
        (by rw [List.append_nil, whole]; exact short) (by rw [List.append_nil, whole]; omega)
      rw [buffer, error, or_iff_right arrived, throwsAt]
      cases SSLStream.sslError s.socket.flow.2 with
      | ssl | syscall => exact iff_of_true trivial rfl
      | wantRead | zeroReturn =>
        exact iff_of_false (not_delivered_of_short short kept _) Bool.false_ne_true

theorem plain_read_delivered_iff (fits : s.leftoverBuffer.length < 2 ^ 31)
    (plain : s.transport = .plain) :
    Delivered s ((PlainStream.readInt amount s).map fun read =>
      (read.1.map ReadOutcome.buffer, read.2)) ↔ Complete amount s := by
  obtain ⟨k, result, kept⟩ := @readInt_of_nonneg amount s _ (leftoverSize_eq fits)
  have front : s.leftoverBuffer.take (min s.leftoverBuffer.length amount) =
      s.leftoverBuffer.take amount := by
    rw [List.take_eq_take_iff]
    omega
  rw [result, Option.map_some, Complete, plain, front, readResult]
  by_cases arrived : amount ≤ (s.leftoverBuffer ++ s.socket.flow.1).length
  · have full : amount ≤
        ((s.leftoverBuffer.take amount ++ s.socket.flow.1).take amount).length := by
      rw [List.length_take, Nat.le_min]
      exact ⟨Nat.le_refl _, (take_append_length _ _ _).mpr arrived⟩
    have missing : amount - (s.leftoverBuffer.take amount).length =
        amount - s.leftoverBuffer.length := by
      rw [List.length_take]
      omega
    rw [if_pos ((take_append_length _ _ _).mpr arrived)]
    refine iff_of_true ?_ (Or.inl arrived)
    simp only [Except.map, zeroFilled_of_le full]
    exact delivered_of_take (by rw [missing]; exact kept)
  · have short : (s.leftoverBuffer ++ s.socket.flow.1).length < amount := Nat.lt_of_not_le arrived
    rw [if_neg (mt (take_append_length _ _ _).mp arrived), or_iff_right arrived, throwsAt]
    rw [List.length_append] at short
    rw [List.take_of_length_le (by omega)] at kept
    cases s.socket.flow.2 with
    | none =>
      refine iff_of_false (not_delivered_of_short ?_ kept _) Bool.false_ne_true
      rw [List.length_append]
      exact short
    | some errno => exact iff_of_true trivial rfl

theorem length_zeroFilled_of_le {written : Bytes} (h : written.length ≤ amount) :
    (zeroFilled amount written).length = amount := by
  rw [length_zeroFilled, Nat.max_eq_left h]

theorem wrapped_read_delivered_iff (isInt : amount < 2 ^ 31)
    (large : 2 ^ 31 ≤ s.leftoverBuffer.length) :
    Delivered s ((PlainStream.readInt amount s).map fun read =>
      (read.1.map ReadOutcome.buffer, read.2)) ↔ Wrapped amount s := by
  -- a vector of the asked size is shorter than `leftoverBuffer` alone
  have front_iff {buffer : Bytes} (len : buffer.length = amount) (delivered : Bytes) :
      buffer <+: s.leftoverBuffer ++ delivered ↔ buffer = s.leftoverBuffer.take amount := by
    rw [List.prefix_iff_eq_take, len, List.take_append_of_le_length (by omega)]
  rw [Wrapped]
  by_cases negative : leftoverSize s < 0
  · rw [readInt_of_neg negative, Option.map_none]
    exact iff_of_false id fun h => absurd h.1 (by omega)
  · obtain ⟨size, nonneg⟩ := Int.eq_ofNat_of_zero_le (Int.not_lt.mp negative)
    have inside := leftoverSize_le s
    obtain ⟨k, result, kept⟩ := @readInt_of_nonneg amount s size nonneg
    rw [nonneg] at inside
    rw [result, nonneg, Option.map_some, Int.toNat_natCast, readResult]
    have len : (s.leftoverBuffer.take (min size amount)).length = min size amount := by
      rw [List.length_take]
      omega
    rw [List.length_append, len]
    by_cases covered : amount ≤ size
    · rw [if_pos (by omega), Nat.min_eq_right covered]
      rw [Nat.min_eq_right covered] at len
      rw [List.take_append_of_le_length (Nat.le_of_eq len.symm), List.take_take, Nat.min_self]
      refine iff_of_true ⟨_, kept, ?_⟩ ⟨by omega, Or.inl (by omega)⟩
      exact (front_iff (length_zeroFilled_of_le (Nat.le_of_eq len)) _).mpr
        (zeroFilled_of_le (Nat.le_of_eq len.symm))
    · rw [Nat.min_eq_left (by omega)] at len ⊢
      have notCovered : ¬ (amount : ℤ) ≤ size := by omega
      by_cases arrived : amount ≤ size + s.socket.flow.1.length
      · have noThrow : ¬ (s.socket.flow.1.length + size : ℤ) < amount := by omega
        rw [if_pos arrived]
        simp only [notCovered, noThrow, false_and, false_or, Int.natCast_nonneg, true_and]
        have taken : ((s.leftoverBuffer.take size ++ s.socket.flow.1).take amount).length ≤
            amount := List.length_take_le _ _
        constructor
        · rintro ⟨delivered, -, front⟩
          exact (front_iff (length_zeroFilled_of_le taken) _).mp front
        · exact fun same => ⟨_, kept, (front_iff (length_zeroFilled_of_le taken) _).mpr same⟩
      · have all : (s.leftoverBuffer.take size ++ s.socket.flow.1).length ≤ amount := by
          rw [List.length_append]
          omega
        rw [if_neg arrived, List.take_of_length_le all]
        cases ended : s.socket.flow.2 with
        | none =>
          simp only [notCovered, ne_eq, not_true_eq_false, and_false, false_or,
            Int.natCast_nonneg, true_and]
          constructor
          · rintro ⟨delivered, -, front⟩
            exact (front_iff (length_zeroFilled_of_le all) _).mp front
          · exact fun same => ⟨_, kept, (front_iff (length_zeroFilled_of_le all) _).mpr same⟩
        | some errno =>
          exact iff_of_true trivial ⟨by omega, Or.inr (Or.inl ⟨by omega, by simp⟩)⟩

/-- `read` returns delivered bytes only, exactly when enough of them come before the pause or the
pause makes it throw. Only a `leftoverBuffer` whose size does not fit an `int` leads elsewhere. -/
theorem read_delivered_iff (P : Platform) (isInt : amount < 2 ^ 31) (s : Stream) :
    Delivered s (readInt P amount s) ↔
      if s.transport = .plain ∧ 2 ^ 31 ≤ s.leftoverBuffer.length then Wrapped amount s
      else Complete amount s := by
  rw [readInt]
  cases transport : s.transport with
  | plain =>
    by_cases large : 2 ^ 31 ≤ s.leftoverBuffer.length
    · rw [if_pos ⟨rfl, large⟩]
      exact wrapped_read_delivered_iff isInt large
    · rw [if_neg fun h => large h.2]
      exact plain_read_delivered_iff (Nat.lt_of_not_le large) transport
  | ssl =>
    rw [if_neg (by simp)]
    exact ssl_read_delivered_iff transport

/-- The buffer is filled from both parts. -/
theorem read_delivered_split :
    Delivered { leftoverBuffer := chars "a", socket := { received := chars "bcd" } }
      (readInt Platform.newestFirst 3
        { leftoverBuffer := chars "a", socket := { received := chars "bcd" } }) := by
  apply (read_delivered_iff Platform.newestFirst (by decide) _).mpr
  rw [if_neg (by decide)]
  exact Or.inl (by decide)

/-- Two of three bytes come, then a plain peer ends its side, or a TLS peer only pauses. -/
theorem read_not_delivered :
    (readInt Platform.newestFirst 3 { socket := { received := chars "ab", fin := true } }).map
        Prod.fst = some (.ok [97, 98, 0]) ∧
      ¬ Delivered { socket := { received := chars "ab", fin := true } }
        (readInt Platform.newestFirst 3 { socket := { received := chars "ab", fin := true } }) ∧
      (readInt Platform.newestFirst 3 { transport := .ssl, socket := { received := chars "ab" } }).map
        Prod.fst = some (.ok [97, 98, 0]) ∧
      ¬ Delivered { transport := .ssl, socket := { received := chars "ab" } }
        (readInt Platform.newestFirst 3
          { transport := .ssl, socket := { received := chars "ab" } }) := by
  refine ⟨rfl, fun whole => ?_, rfl, fun whole => ?_⟩
  · exact @not_delivered_of_short 3 { socket := { received := chars "ab", fin := true } }
      { socket := { fin := true } } (by decide) rfl (chars "ab") whole
  · exact @not_delivered_of_short 3 { transport := .ssl, socket := { received := chars "ab" } }
      { transport := .ssl } (by decide) rfl (chars "ab") whole

end IStream

/-! ## Reads that throw -/

namespace PlainStream

/-- A read that throws leaves every byte to the next one. -/
def Lossless (s : Stream) : Option (Except CppException ReadOutcome × Stream) → Prop
  | none => False
  | some (.error _, s') => s'.incoming = s.incoming
  | some (.ok _, _) => True

/-- `read` loses nothing exactly when it does not throw, or throws before it has taken a byte. -/
theorem read_lossless_iff (amount : ℤ) (s : Stream) :
    Lossless s (readAmount amount s) ↔
      amount < 0 ∨ 0 ≤ leftoverSize s ∧
        (amount ≤ leftoverSize s + s.socket.flow.1.length ∨ s.socket.flow.2 = none ∨
          leftoverSize s = 0 ∧ s.socket.flow.1 = []) := by
  rw [readAmount]
  by_cases isNegative : amount < 0
  · rw [if_pos isNegative]
    exact iff_of_true rfl (Or.inl isNegative)
  · obtain ⟨count, rfl⟩ := Int.eq_ofNat_of_zero_le (Int.not_lt.mp isNegative)
    rw [if_neg isNegative, or_iff_right isNegative, Int.toNat_natCast]
    by_cases negative : leftoverSize s < 0
    · rw [readInt_of_neg negative]
      exact iff_of_false id fun h => absurd h.1 (by omega)
    · obtain ⟨size, nonneg⟩ := Int.eq_ofNat_of_zero_le (Int.not_lt.mp negative)
      have inside := leftoverSize_le s
      obtain ⟨k, result, kept⟩ := @readInt_of_nonneg count s size nonneg
      have len : (s.leftoverBuffer.take (min size count)).length = min size count := by
        rw [List.length_take]
        omega
      rw [result, nonneg, readResult, List.length_append, len]
      by_cases arrived : count ≤ size + s.socket.flow.1.length
      · rw [if_pos (by omega)]
        exact iff_of_true trivial ⟨by omega, Or.inl (by omega)⟩
      · rw [if_neg (by omega)]
        cases ended : s.socket.flow.2 with
        | none => exact iff_of_true trivial ⟨by omega, Or.inr (Or.inl rfl)⟩
        | some errno =>
          rw [List.take_of_length_le (by omega)] at kept
          rw [Nat.min_eq_left (by omega)]
          have few : ¬ (count : ℤ) ≤ size + s.socket.flow.1.length := by omega
          simp only [few, reduceCtorEq, false_or, Int.natCast_nonneg, true_and,
            Int.natCast_eq_zero]
          constructor
          · intro same
            have lengths := congrArg List.length same
            simp only [Stream.incoming, List.length_append, List.length_drop, ← kept] at lengths
            exact ⟨by omega, List.eq_nil_of_length_eq_zero (by omega)⟩
          · rintro ⟨rfl, nothing⟩
            rw [nothing, List.nil_append] at kept
            show s.leftoverBuffer.drop 0 ++ k.incoming = s.leftoverBuffer ++ s.socket.incoming
            rw [List.drop_zero, kept]

/-- Two bytes are taken before the pause, and then they are gone. -/
theorem read_not_lossless :
    ¬ Lossless { leftoverBuffer := chars "a", socket := { received := chars "b" } }
      (readAmount 3 { leftoverBuffer := chars "a", socket := { received := chars "b" } }) := by
  intro same
  exact absurd (congrArg List.length same) (by decide)

end PlainStream

end Lightning
