import Lightning.Request
import Lightning.Proof.Flow

/-!
# Which body length `getBody` reads

`std::stoi` gives the number at the front of a text and does not look at what follows it, so
`getBody` takes a length from values that are no numeral, `5abc` or `+5` for instance. On a numeral
that fits an `int` it takes exactly so many bytes whenever so many come before the stream pauses.
-/

namespace Lightning

namespace IStream

variable {P : Platform} {amount : ℕ} {s : Stream}

theorem le_length_zeroFilled (amount : ℕ) (written : Bytes) :
    amount ≤ (zeroFilled amount written).length := by
  rw [length_zeroFilled]
  exact Nat.le_max_left _ _

/-- What `read` answers: a vector of the asked size, or an exception of the transport. -/
inductive ReadEnds (amount : ℕ) : Except CppException Bytes → Prop
  | body (bytes : Bytes) (full : amount ≤ bytes.length) : ReadEnds amount (.ok bytes)
  | recv (errno : ℤ) : ReadEnds amount (.error (.lowLevelApi "recv() failed" errno errno))
  | ssl (msg : String) (code errno : ℤ) : ReadEnds amount (.error (.openSslErrorQueue msg code errno))

theorem readEnds_plain (amount : ℕ) (s : Stream) :
    ReadEnds amount (PlainStream.read amount s).1 := by
  rw [PlainStream.read_eq, PlainStream.readLoop_eq_written]
  dsimp only
  rw [(@PlainStream.readLoopWritten_eq amount (amount + 1) (s.leftoverBuffer.take amount) s.socket
    (by omega) (List.length_take_le _ _)).1, PlainStream.readResult]
  split_ifs
  · exact .body _ (le_length_zeroFilled _ _)
  · cases s.socket.flow.2 with
    | none => exact .body _ (le_length_zeroFilled _ _)
    | some errno => exact .recv errno

theorem readLoop_ssl_full (P : Platform) (amount fuel : ℕ) (written chunk : Bytes) (k : Socket) :
    amount ≤ (SSLStream.readLoop P amount fuel written chunk k).1.length := by
  induction fuel generalizing written chunk k with
  | zero => exact le_length_zeroFilled _ _
  | succ fuel ih =>
    rw [SSLStream.readLoop]
    rcases SSL_read_ex P (amount - (written ++ chunk).length) k with ⟨e | bytes, k'⟩
    · exact le_length_zeroFilled _ _
    · dsimp only
      split_ifs
      · exact ih _ _ _
      · exact le_length_zeroFilled _ _

theorem readEnds_ssl (P : Platform) (amount : ℕ) (s : Stream) :
    ReadEnds amount (SSLStream.read P amount s).1 := by
  have full := readLoop_ssl_full P amount (amount + 2) (s.leftoverBuffer.take amount) [] s.socket
  rw [SSLStream.read, Stream.readFromLeftover_eq]
  dsimp only
  split_ifs with served
  · exact .body _ served
  · rcases hloop : SSLStream.readLoop P amount (amount + 2) (s.leftoverBuffer.take amount) []
      s.socket with ⟨bytes, error, k⟩
    rw [hloop] at full
    cases error with
    | none => exact .body _ full
    | some e =>
      cases e with
      | ssl | syscall => exact .ssl _ _ _
      | wantRead | zeroReturn => exact .body _ full

theorem readEnds (P : Platform) (amount : ℕ) (s : Stream) :
    ReadEnds amount (read P amount s).1 := by
  rw [read]
  cases s.transport with
  | plain => exact readEnds_plain amount s
  | ssl => exact readEnds_ssl P amount s

end IStream

namespace HttpRequest

variable {P : Platform} {request : HttpRequest} {v : Bytes} {s : Stream} {n : ℕ}

/-- `getBody` takes the next `n` bytes of the connection, no more and no fewer. -/
def TakesExactly (P : Platform) (request : HttpRequest) (s : Stream) (n : ℕ) : Prop :=
  ∃ body, body.length = n ∧ body ++ (getBody P request s).2.2.incoming = s.incoming

/-- `getBody` leaves the stream and the request alone and says that there is no length: it gives no
body, or throws as `std::stoi` does. -/
def FindsNoLength (P : Platform) (request : HttpRequest) (s : Stream) : Prop :=
  (getBody P request s).2 = (request, s) ∧
    ((getBody P request s).1 = .ok [] ∨ (getBody P request s).1 = .error .invalidArgument ∨
      (getBody P request s).1 = .error .outOfRange)

/-- Only a plain numeral that fits an `int` is a length, and then exactly so much is taken. -/
structure StrictLength (P : Platform) (request : HttpRequest) (v : Bytes) (s : Stream) : Prop where
  numeral : ∀ n, IsNumeral v n → n < 2 ^ 31 → TakesExactly P request s n
  other : (∀ n, IsNumeral v n → 2 ^ 31 ≤ n) → FindsNoLength P request s

/-- Without a positive number at the front of the value there is no length. -/
theorem findsNoLength_of_stoi (hasStream : request.stream = true)
    (header : request.getHeader (chars "Content-Length") = some v)
    (noLength : ∀ n : ℕ, 0 < n → stoi v ≠ .ok (n : ℤ)) : FindsNoLength P request s := by
  have thrown (e) (h : stoi v = .error e) : e = .invalidArgument ∨ e = .outOfRange := by
    rw [stoi] at h
    dsimp only at h
    split_ifs at h <;> cases h <;> simp
  cases hv : stoi v with
  | error e =>
    have result : getBody P request s = (.error e, request, s) := by
      simp only [getBody, hasStream, header, hv, Bool.true_eq_false, if_false]
    rw [FindsNoLength, result]
    obtain rfl | rfl := thrown e hv
    · exact ⟨rfl, Or.inr (Or.inl rfl)⟩
    · exact ⟨rfl, Or.inr (Or.inr rfl)⟩
  | ok length =>
    have nonpos : length ≤ 0 := by
      by_contra positive
      obtain ⟨n, rfl⟩ := Int.eq_ofNat_of_zero_le (by omega : 0 ≤ length)
      exact noLength n (by omega) hv
    have result : getBody P request s = (.ok [], request, s) := by
      simp only [getBody, hasStream, header, hv, Bool.true_eq_false, if_false, if_pos nonpos]
    rw [FindsNoLength, result]
    exact ⟨rfl, Or.inl rfl⟩

/-- A call of `read` for at least one byte does not look like a missing length. -/
theorem not_findsNoLength (hasStream : request.stream = true)
    (header : request.getHeader (chars "Content-Length") = some v) (length : stoi v = .ok (n : ℤ))
    (pos : 0 < n) : ¬ FindsNoLength P request s := by
  rintro ⟨-, result⟩
  rw [(getBody_of_length hasStream header length pos).1] at result
  have ends := IStream.readEnds P n s
  obtain result | result | result := result
  · rw [result] at ends
    cases ends with
    | body bytes full => exact absurd full (Nat.not_le.mpr pos)
  · rw [result] at ends
    cases ends
  · rw [result] at ends
    cases ends

/-- On a plain numeral that fits an `int`, exactly so many bytes are taken if and only if they come
before the stream pauses. -/
theorem takesExactly_iff (hasStream : request.stream = true)
    (header : request.getHeader (chars "Content-Length") = some v) (numeral : IsNumeral v n)
    (small : n < 2 ^ 31) :
    TakesExactly P request s n ↔ n ≤ (s.leftoverBuffer ++ s.socket.flow.1).length := by
  have taken : (s.leftoverBuffer ++ s.socket.flow.1).take n ++
      (getBody P request s).2.2.incoming = s.incoming := by
    rw [getBody_stream hasStream header numeral]
    split_ifs with reads
    · exact IStream.read_takes P n s
    · obtain rfl : n = 0 := by omega
      rw [List.take_zero, List.nil_append]
  constructor
  · rintro ⟨body, len, rest⟩
    obtain rfl := List.append_cancel_right (rest.trans taken.symm)
    rw [List.length_take] at len
    omega
  · intro come
    exact ⟨_, List.length_take_of_le come, taken⟩

/-- `getBody` is strict about the value exactly when the bytes of a plain numeral come before the
stream pauses, and no value that is no numeral starts with a positive number that fits an `int`. -/
theorem strictLength_iff (P : Platform) (s : Stream) (hasStream : request.stream = true)
    (header : request.getHeader (chars "Content-Length") = some v) :
    StrictLength P request v s ↔
      (∀ n, IsNumeral v n → n < 2 ^ 31 → n ≤ (s.leftoverBuffer ++ s.socket.flow.1).length) ∧
        ∀ n, StartsWithNumeral v n → 0 < n → n < 2 ^ 31 → IsNumeral v n := by
  constructor
  · intro strict
    refine ⟨fun n numeral small =>
      (takesExactly_iff hasStream header numeral small).mp (strict.numeral n numeral small), ?_⟩
    intro n starts pos small
    have length : stoi v = .ok (n : ℤ) := (stoi_eq_ok_iff pos).mpr ⟨starts, small⟩
    by_contra other
    refine not_findsNoLength hasStream header length pos (strict.other fun m numeral => ?_)
    by_contra fits
    rw [stoi_of_isNumeral numeral, if_pos (Nat.lt_of_not_le fits)] at length
    obtain rfl : m = n := by exact_mod_cast Except.ok.inj length
    exact other numeral
  · rintro ⟨come, plain⟩
    constructor
    · intro n numeral small
      exact (takesExactly_iff hasStream header numeral small).mpr (come n numeral small)
    · intro none
      apply findsNoLength_of_stoi hasStream header
      intro n pos length
      obtain ⟨starts, small⟩ := (stoi_eq_ok_iff pos).mp length
      exact absurd (none n (plain n starts pos small)) (Nat.not_le.mpr small)

/-- A request with this head, attached to its stream. -/
def lengthRequest (value : Bytes) : Option HttpRequest :=
  (createRequest (chars "POST / HTTP/1.1\r\nContent-Length: " ++ value)).map setStream

theorem isNumeral_spaced : IsNumeral (chars " 5") 5 :=
  ⟨chars " ", chars "5", [], rfl, by decide +kernel, by decide +kernel, by decide +kernel,
    by decide +kernel, rfl⟩

/-- White space around the numeral is fine, and five of the seven bytes are taken. -/
theorem strictLength_spaced :
    ∃ request, lengthRequest (chars " 5") = some request ∧
      StrictLength Platform.newestFirst request (chars " 5")
        { leftoverBuffer := chars "hel", socket := { received := chars "loab" } } := by
  refine ⟨_, rfl, (strictLength_iff Platform.newestFirst _ rfl rfl).mpr ⟨?_, ?_⟩⟩
  · intro n numeral small
    have length := stoi_of_isNumeral numeral
    rw [stoi_of_isNumeral isNumeral_spaced, if_pos small, if_pos (by decide)] at length
    obtain rfl : 5 = n := by exact_mod_cast Except.ok.inj length
    decide
  · intro n starts pos small
    have length := stoi_of_startsWithNumeral starts
    rw [stoi_of_isNumeral isNumeral_spaced, if_pos small, if_pos (by decide)] at length
    obtain rfl : 5 = n := by exact_mod_cast Except.ok.inj length
    exact isNumeral_spaced

theorem byte_of_isNumeral {b : UInt8} (h : IsNumeral v n) (hb : b ∈ v) : isSpace b ∨ isDigit b := by
  obtain ⟨pre, digits, post, rfl, hpre, hdigits, -, hpost, -⟩ := h
  rw [List.mem_append, List.mem_append] at hb
  obtain (hb | hb) | hb := hb
  · exact Or.inl (hpre b hb)
  · exact Or.inr (hdigits b hb)
  · exact Or.inl (hpost b hb)

/-- `5abc` is no numeral, and five bytes are taken. -/
theorem not_strictLength :
    ∃ request, lengthRequest (chars "5abc") = some request ∧
      request.getHeader (chars "Content-Length") = some (chars "5abc") ∧
      (getBody Platform.newestFirst request { leftoverBuffer := chars "hello" }).1 =
        .ok (chars "hello") ∧
      ¬ StrictLength Platform.newestFirst request (chars "5abc")
        { leftoverBuffer := chars "hello" } := by
  refine ⟨_, rfl, rfl, rfl, fun strict => ?_⟩
  have letters (n) (numeral : IsNumeral (chars "5abc") n) : 2 ^ 31 ≤ n := by
    exact absurd (@byte_of_isNumeral _ n 97 numeral (by decide +kernel)) (by decide)
  have taken : (chars "hello") = [] := congrArg (fun after => after.2.leftoverBuffer)
    (strict.other letters).1.symm
  exact absurd taken (by decide)

end HttpRequest

end Lightning
