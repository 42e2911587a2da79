import Lightning.ReadUntilToken

/-!
# Reading until a token

`Socket.chunks 1024` are the chunks in which a socket delivers its bytes to `readUntilToken`, and
`upToToken` are those of them that a search of everything read so far needs. The first theorem says
when `PlainStream::readUntilToken` splits the connection at the token, the second when the two
classes agree.
-/

namespace Lightning

open Search

namespace Socket

def reads (len : ℕ) : ℕ → Socket → List Bytes
  | 0, _ => []
  | fuel + 1, k =>
      match k.recv len with
      | (.data bytes, k) => bytes :: reads len fuel k
      | (.eof, _) => []
      | (.fail _, _) => []

/-- What successive calls `recv(fd, _, len, 0)` return until one returns no byte. -/
def chunks (len : ℕ) (k : Socket) : List Bytes := reads len (k.incoming.length + 1) k

variable {len fuel : ℕ} {k : Socket}

theorem reads_of_data {bytes : Bytes} (h : (k.recv len).1 = .data bytes) :
    reads len (fuel + 1) k = bytes :: reads len fuel (k.recv len).2 := by
  rw [reads, show k.recv len = (.data bytes, (k.recv len).2) from Prod.ext h rfl]

theorem reads_of_stop (h : (k.recv len).1 = .eof ∨ ∃ errno, (k.recv len).1 = .fail errno) :
    reads len (fuel + 1) k = [] := by
  rw [reads]
  rcases hrecv : k.recv len with ⟨result, k'⟩
  rw [hrecv] at h
  obtain h | ⟨errno, h⟩ := h <;> cases h <;> rfl

theorem mem_reads (pos : 0 < len) : ∀ c ∈ reads len fuel k, c ≠ [] ∧ c.length ≤ len := by
  induction fuel generalizing k with
  | zero => exact fun c h => absurd h List.not_mem_nil
  | succ fuel ih =>
    rcases recv_cases len k with ⟨bytes, hdata, -, hle, hne⟩ | ⟨hstop, -⟩
    · rw [reads_of_data hdata, List.forall_mem_cons]
      exact ⟨⟨hne pos, hle⟩, ih⟩
    · rw [reads_of_stop hstop]
      exact fun c h => absurd h List.not_mem_nil

theorem length_le_flatten {cs : List Bytes} (nonempty : ∀ c ∈ cs, c ≠ []) :
    cs.length ≤ cs.flatten.length := by
  induction cs with
  | nil => exact Nat.zero_le _
  | cons c cs ih =>
    obtain ⟨hne, nonempty⟩ := List.forall_mem_cons.mp nonempty
    have pos := List.length_pos_iff.mpr hne
    have rest := ih nonempty
    rw [List.flatten_cons, List.length_append, List.length_cons]
    omega

/-- Every division of a byte sequence into chunks can happen. -/
theorem chunks_schedule {cs : List Bytes} (sizes : ∀ c ∈ cs, c ≠ [] ∧ c.length ≤ len) :
    chunks len { schedule := cs.map fun c => { bytes := c } } = cs := by
  have enough : ∀ fuel, cs.length < fuel →
      reads len fuel { schedule := cs.map fun c => { bytes := c } } = cs := by
    intro fuel more
    induction cs generalizing fuel with
    | nil =>
      obtain ⟨fuel, rfl⟩ := Nat.exists_eq_succ_of_ne_zero (Nat.ne_of_gt more)
      exact reads_of_stop (Or.inr ⟨EAGAIN, rfl⟩)
    | cons c cs ih =>
      obtain ⟨fuel, rfl⟩ := Nat.exists_eq_succ_of_ne_zero (Nat.ne_of_gt (Nat.zero_lt_of_lt more))
      obtain ⟨⟨hne, hle⟩, sizes⟩ := List.forall_mem_cons.mp sizes
      have first : ({ schedule := (c :: cs).map fun c => { bytes := c } } : Socket).recv len =
          (.data c, { schedule := cs.map fun c => { bytes := c } }) := by
        have arrived : c ++ [] ≠ [] := by rwa [List.append_nil]
        rw [List.map_cons, recv_of_ne (by rw [poll_received]; exact arrived)]
        simp [poll, arrive, List.take_of_length_le hle, List.drop_of_length_le hle]
      rw [reads_of_data (congrArg Prod.fst first), first]
      exact congrArg _ (ih sizes fuel (Nat.lt_of_succ_lt_succ more))
  have incoming : ({ schedule := cs.map fun c => { bytes := c } } : Socket).incoming =
      cs.flatten := by
    simp [incoming, List.flatMap_map]
  rw [chunks, incoming]
  exact enough _ (Nat.lt_succ_of_le (length_le_flatten fun c h => (sizes c h).1))

end Socket

/-- The chunks up to the first that completes the token, behind what was read before. -/
def upToToken (token : Bytes) : List Bytes → Bytes → Option Bytes
  | [], _ => none
  | c :: cs, buffer =>
      if token <:+: buffer ++ c then some (buffer ++ c) else upToToken token cs (buffer ++ c)

section UpToToken

variable {token buffer : Bytes} {cs : List Bytes}

theorem upToToken_eq_none_iff (absent : ¬ token <:+: buffer) :
    upToToken token cs buffer = none ↔ ¬ token <:+: buffer ++ cs.flatten := by
  induction cs generalizing buffer with
  | nil => simpa [upToToken] using absent
  | cons c cs ih =>
    rw [upToToken, List.flatten_cons, ← List.append_assoc]
    split_ifs with found
    · have later := found.trans (List.prefix_append (buffer ++ c) cs.flatten).isInfix
      exact iff_of_false (by simp) (fun h => h later)
    · exact ih found

/-- Without the last of these chunks the token is not complete. -/
theorem upToToken_spec {block : Bytes} (absent : ¬ token <:+: buffer)
    (h : upToToken token cs buffer = some block) :
    token <:+: block ∧ block <+: buffer ++ cs.flatten ∧
      ∃ front, ∃ c ∈ cs, block = front ++ c ∧ ¬ token <:+: front := by
  induction cs generalizing buffer with
  | nil => cases h
  | cons c cs ih =>
    rw [upToToken] at h
    rw [List.flatten_cons, ← List.append_assoc]
    split_ifs at h with found
    · cases h
      exact ⟨found, List.prefix_append _ _, buffer, c, List.mem_cons_self, rfl, absent⟩
    · obtain ⟨inside, atFront, front, c', member, split, absent'⟩ := ih found h
      exact ⟨inside, atFront, front, c', List.mem_cons_of_mem c member, split, absent'⟩

end UpToToken

/-! ## `PlainStream` -/

namespace PlainStream

open Socket

variable {token buffer bytes : Bytes} {fuel position : ℕ} {k : Socket} {s : Stream}

theorem tokenLoop_of_found (h : (k.recv 1024).1 = .data bytes)
    (found : findFirst token (buffer ++ bytes) = some position) :
    tokenLoop token (fuel + 1) buffer k =
      (.ok (buffer ++ bytes, some position), (k.recv 1024).2) := by
  rw [tokenLoop, show k.recv 1024 = (.data bytes, (k.recv 1024).2) from Prod.ext h rfl]
  dsimp only
  rw [found]

theorem tokenLoop_of_missing (h : (k.recv 1024).1 = .data bytes)
    (missing : findFirst token (buffer ++ bytes) = none) :
    tokenLoop token (fuel + 1) buffer k =
      tokenLoop token fuel (buffer ++ bytes) (k.recv 1024).2 := by
  rw [tokenLoop, show k.recv 1024 = (.data bytes, (k.recv 1024).2) from Prod.ext h rfl]
  dsimp only
  rw [missing]

/-- The loop reads the chunks up to the token. -/
theorem tokenLoop_found {block : Bytes}
    (h : upToToken token (k.reads 1024 fuel) buffer = some block) :
    ∃ position, findFirst token block = some position ∧
      (tokenLoop token fuel buffer k).1 = .ok (block, some position) ∧
      ∃ taken, block = buffer ++ taken ∧
        taken ++ (tokenLoop token fuel buffer k).2.incoming = k.incoming := by
  induction fuel generalizing buffer k with
  | zero => cases h
  | succ fuel ih =>
    rcases recv_cases 1024 k with ⟨bytes, hdata, split, -, -⟩ | ⟨hstop, -⟩
    · rw [reads_of_data hdata, upToToken] at h
      split_ifs at h with inside
      · cases h
        obtain ⟨position, found⟩ := Option.isSome_iff_exists.mp
          ((findFirst_isSome_iff _ _).mpr inside)
        rw [tokenLoop_of_found hdata found]
        exact ⟨position, found, rfl, bytes, rfl, split⟩
      · rw [tokenLoop_of_missing hdata ((findFirst_eq_none_iff _ _).mpr inside)]
        obtain ⟨position, found, result, taken, rfl, rest⟩ := ih h
        refine ⟨position, found, result, bytes ++ taken, List.append_assoc _ _ _, ?_⟩
        rw [List.append_assoc, rest, split]
    · rw [reads_of_stop hstop] at h
      cases h

/-- Without the token the loop fails or ends with everything that came. -/
theorem tokenLoop_missing (h : upToToken token (k.reads 1024 fuel) buffer = none) :
    (∃ e, (tokenLoop token fuel buffer k).1 = .error e) ∨
      ∃ taken, (tokenLoop token fuel buffer k).1 = .ok (buffer ++ taken, none) ∧
        taken ++ (tokenLoop token fuel buffer k).2.incoming = k.incoming := by
  induction fuel generalizing buffer k with
  | zero => exact Or.inr ⟨[], by rw [List.append_nil]; rfl, rfl⟩
  | succ fuel ih =>
    rcases recv_cases 1024 k with ⟨bytes, hdata, split, -, -⟩ | ⟨hstop, -, same⟩
    · rw [reads_of_data hdata, upToToken] at h
      split_ifs at h with inside
      rw [tokenLoop_of_missing hdata ((findFirst_eq_none_iff _ _).mpr inside)]
      obtain failed | ⟨taken, result, rest⟩ := ih h
      · exact Or.inl failed
      · refine Or.inr ⟨bytes ++ taken, ?_, ?_⟩
        · rw [result, List.append_assoc]
        · rw [List.append_assoc, rest, split]
    · rw [tokenLoop]
      rcases hrecv : k.recv 1024 with ⟨result, k'⟩
      rw [hrecv] at hstop same
      obtain hstop | ⟨errno, hstop⟩ := hstop <;> cases hstop
      · exact Or.inr ⟨[], by rw [List.append_nil], same⟩
      · exact Or.inl ⟨_, rfl⟩

/-- The token comes: the chunks up to it are cut at its first occurrence. -/
theorem readUntilToken_found {block : Bytes}
    (h : upToToken token (s.socket.chunks 1024) [] = some block) :
    ∃ position k, findFirst token block = some position ∧
      readUntilToken token s = (.ok (block.take position), { s with
        leftoverBuffer := s.leftoverBuffer ++ block.drop (position + token.length)
        socket := k }) ∧
      block ++ k.incoming = s.socket.incoming := by
  obtain ⟨position, found, result, taken, htaken, rest⟩ := tokenLoop_found h
  rw [List.nil_append] at htaken
  subst htaken
  rw [readUntilToken]
  rcases hloop : tokenLoop token (s.socket.incoming.length + 1) [] s.socket with ⟨outcome, k⟩
  rw [hloop] at result rest
  dsimp only at result rest
  subst result
  exact ⟨position, k, found, rfl, rest⟩

/-- Without the token there is an exception, or everything that came is returned. -/
theorem readUntilToken_missing (h : upToToken token (s.socket.chunks 1024) [] = none) :
    (∃ e, (readUntilToken token s).1 = .error e) ∨
      ∃ taken, (readUntilToken token s).1 = .ok taken ∧
        (readUntilToken token s).2.incoming.length + taken.length = s.incoming.length := by
  rw [readUntilToken]
  rcases hloop : tokenLoop token (s.socket.incoming.length + 1) [] s.socket with ⟨outcome, k⟩
  obtain ⟨e, failed⟩ | ⟨taken, result, rest⟩ := tokenLoop_missing h
  · rw [hloop] at failed
    dsimp only at failed
    subst failed
    exact Or.inl ⟨e, rfl⟩
  · rw [hloop] at result rest
    dsimp only at result rest
    subst result
    refine Or.inr ⟨taken, rfl, ?_⟩
    have lengths := congrArg List.length rest
    simp only [Stream.incoming, List.length_append] at lengths ⊢
    omega

/-- The connection is split at the first occurrence of the token. -/
def SplitAt (token : Bytes) (s : Stream) (result : Except CppException Bytes × Stream) : Prop :=
  ∃ position, findFirst token s.incoming = some position ∧
    result.1 = .ok (s.incoming.take position) ∧
    result.2.incoming = s.incoming.drop (position + token.length)

/-- The same bytes behind `leftoverBuffer` and in front of it: what is returned is split off the
connection only if the two can be exchanged. -/
theorem splitAt_iff_comm {front rest : Bytes} (found : findFirst token front = some position)
    (whole : front.length = position + token.length)
    (h : s.incoming = s.leftoverBuffer ++ front ++ rest)
    {s' : Stream} (after : s'.incoming = s.leftoverBuffer ++ rest) :
    SplitAt token s (.ok (front.take position), s') ↔
      s.leftoverBuffer ++ front = front ++ s.leftoverBuffer := by
  constructor
  · rintro ⟨position', found', result, kept⟩
    have inside := length_le_of_findFirst found'
    have lengths := congrArg List.length (Except.ok.inj result)
    rw [List.length_take, List.length_take] at lengths
    obtain rfl : position = position' := by omega
    have same : s.incoming.take (position + token.length) = front := by
      rw [take_of_findFirst found', ← Except.ok.inj result, ← take_of_findFirst found, ← whole,
        List.take_length]
    rw [after] at kept
    have split := List.take_append_drop (position + token.length) s.incoming
    rw [same, ← kept, h, ← List.append_assoc] at split
    exact (List.append_cancel_right split).symm
  · intro comm
    rw [comm, List.append_assoc] at h
    refine ⟨position, ?_, ?_, ?_⟩
    · rw [h]
      exact findFirst_append found _
    · rw [h, List.take_append_of_le_length (by omega)]
    · rw [after, h, ← whole, List.drop_left]

/-- `PlainStream::readUntilToken` splits the connection at the token, exactly when the socket brings
the token before it pauses and the bytes up to its end can be exchanged with `leftoverBuffer`. -/
theorem readUntilToken_splitAt_iff (nonempty : token ≠ []) (s : Stream) :
    SplitAt token s (readUntilToken token s) ↔
      ∃ position, findFirst token (s.socket.chunks 1024).flatten = some position ∧
        s.leftoverBuffer ++ s.socket.incoming.take (position + token.length) =
          s.socket.incoming.take (position + token.length) ++ s.leftoverBuffer := by
  have absent : ¬ token <:+: [] := fun h => nonempty (List.infix_nil.mp h)
  cases hblock : upToToken token (s.socket.chunks 1024) [] with
  | none =>
    have missing := (upToToken_eq_none_iff absent).mp hblock
    rw [List.nil_append, ← findFirst_eq_none_iff] at missing
    have pos := List.length_pos_iff.mpr nonempty
    refine iff_of_false ?_ (by simp [missing])
    rintro ⟨position, found, result, kept⟩
    obtain ⟨e, failed⟩ | ⟨taken, returned, sizes⟩ := readUntilToken_missing hblock
    · rw [failed] at result
      cases result
    · rw [returned] at result
      have inside := length_le_of_findFirst found
      have len := congrArg List.length (Except.ok.inj result)
      rw [kept, List.length_drop] at sizes
      rw [List.length_take] at len
      omega
  | some block =>
    obtain ⟨position, k, found, result, split⟩ := readUntilToken_found hblock
    obtain ⟨-, ⟨after, chunks⟩, -⟩ := upToToken_spec absent hblock
    have inside := length_le_of_findFirst found
    have inChunks : findFirst token (s.socket.chunks 1024).flatten = some position := by
      rw [← List.nil_append (s.socket.chunks 1024).flatten, ← chunks]
      exact findFirst_append found after
    have front : s.socket.incoming.take (position + token.length) =
        block.take (position + token.length) := by
      rw [← split, List.take_append_of_le_length inside]
    have whole : (block.take (position + token.length)).length = position + token.length := by
      rw [List.length_take, Nat.min_eq_left inside]
    have returned : block.take position = (block.take (position + token.length)).take position := by
      rw [List.take_take, Nat.min_eq_left (Nat.le_add_right _ _)]
    have parts : s.incoming = s.leftoverBuffer ++ block.take (position + token.length) ++
        (block.drop (position + token.length) ++ k.incoming) := by
      rw [Stream.incoming, ← split, List.append_assoc, ← List.append_assoc (block.take _),
        List.take_append_drop]
    rw [result, inChunks, returned]
    simp only [Option.some.injEq, exists_eq_left', front]
    apply splitAt_iff_comm (findFirst_take found (Nat.le_refl _)) whole parts
    exact List.append_assoc _ _ _

/-- A fresh stream, with the token in two chunks. -/
theorem readUntilToken_splitAt_fresh :
    SplitAt CRLF { socket := { received := [97, 13], schedule := [{}, { bytes := [10, 98] }] } }
      (readUntilToken CRLF
        { socket := { received := [97, 13], schedule := [{}, { bytes := [10, 98] }] } }) :=
  (readUntilToken_splitAt_iff (by decide) _).mpr ⟨1, by decide, by decide⟩

/-- What is in `leftoverBuffer` already is skipped, and stands in front of what follows. -/
theorem readUntilToken_not_splitAt :
    (readUntilToken CRLF { leftoverBuffer := [97], socket := { received := [98, 13, 10] } }).1 =
        .ok [98] ∧
      ¬ SplitAt CRLF { leftoverBuffer := [97], socket := { received := [98, 13, 10] } }
        (readUntilToken CRLF { leftoverBuffer := [97], socket := { received := [98, 13, 10] } }) := by
  refine ⟨rfl, ?_⟩
  rintro ⟨position, found, result, -⟩
  obtain rfl : 2 = position := Option.some.inj found
  exact absurd result (by decide)

end PlainStream

/-! ## `SSLStream` -/

namespace SSLStream

open Socket

variable {P : Platform} {token buffer chunk bytes : Bytes} {fuel position : ℕ} {k : Socket}
  {s : Stream}

theorem tokenLoop_of_found (h : (k.recv 1024).1 = .data bytes)
    (found : findFirst token (bytes ++ chunk.drop bytes.length) = some position) :
    tokenLoop P token (fuel + 1) buffer chunk k =
      (.ok (buffer ++ (bytes ++ chunk.drop bytes.length), some position), (k.recv 1024).2) := by
  rw [tokenLoop, SSL_read_ex_of_data (by decide) h]
  dsimp only
  rw [found]

theorem tokenLoop_of_missing (h : (k.recv 1024).1 = .data bytes)
    (missing : findFirst token (bytes ++ chunk.drop bytes.length) = none) :
    tokenLoop P token (fuel + 1) buffer chunk k =
      tokenLoop P token fuel (buffer ++ (bytes ++ chunk.drop bytes.length))
        (bytes ++ chunk.drop bytes.length) (k.recv 1024).2 := by
  rw [tokenLoop, SSL_read_ex_of_data (by decide) h]
  dsimp only
  rw [missing]

/-- The buffer grows by whole blocks, and the position lies in one block. -/
theorem tokenLoop_sizes {result : Bytes} (full : chunk.length = 1024)
    (h : (tokenLoop P token fuel buffer chunk k).1 = .ok (result, some position)) :
    buffer.length + 1024 ≤ result.length ∧ position + token.length ≤ 1024 := by
  induction fuel generalizing buffer chunk k with
  | zero => cases h
  | succ fuel ih =>
    rcases recv_cases 1024 k with ⟨bytes, hdata, -, hle, -⟩ | ⟨hstop, -⟩
    · have len : (bytes ++ chunk.drop bytes.length).length = 1024 := by
        rw [List.length_append, List.length_drop]
        omega
      cases found : findFirst token (bytes ++ chunk.drop bytes.length) with
      | some position' =>
        rw [tokenLoop_of_found hdata found] at h
        cases h
        have inside := length_le_of_findFirst found
        rw [List.length_append]
        omega
      | none =>
        rw [tokenLoop_of_missing hdata found] at h
        have sizes := ih len h
        rw [List.length_append] at sizes
        omega
    · obtain ⟨e, failed⟩ := SSL_read_ex_of_stop (P := P) hstop
      rw [tokenLoop, failed] at h
      dsimp only at h
      cases thrown : handleReadError e with
      | error e =>
        rw [thrown] at h
        cases h
      | ok _ =>
        rw [thrown] at h
        obtain ⟨rfl, found⟩ := Prod.mk.inj (Except.ok.inj h)
        have inside := length_le_of_findFirst found
        rw [List.length_append]
        omega

/-- The first block is what came, and zeros. -/
theorem first_block (bytes : Bytes) :
    bytes ++ (List.replicate 1024 (0 : UInt8)).drop bytes.length = zeroFilled 1024 bytes := by
  rw [List.drop_replicate, zeroFilled]

theorem readUntilToken_of_found (h : (s.socket.recv 1024).1 = .data bytes)
    (found : findFirst token (zeroFilled 1024 bytes) = some position) :
    readUntilToken P token s = some (.ok ((zeroFilled 1024 bytes).take position), { s with
      leftoverBuffer :=
        s.leftoverBuffer ++ (zeroFilled 1024 bytes).drop (position + token.length)
      socket := (s.socket.recv 1024).2 }) := by
  rw [readUntilToken, tokenLoop_of_found h (by rw [first_block]; exact found),
    first_block, List.nil_append]

/-- Later blocks put at least `2048` bytes into the buffer, of which the returned ones and the token
are no more than `1024`. -/
theorem readUntilToken_of_missing (h : (s.socket.recv 1024).1 = .data bytes)
    (hle : bytes.length ≤ 1024) (missing : findFirst token (zeroFilled 1024 bytes) = none)
    {result : Bytes} {s' : Stream} (returned : readUntilToken P token s = some (.ok result, s')) :
    result.length + token.length ≤ 1024 ∧
      s.leftoverBuffer.length + 2048 ≤
        result.length + token.length + s'.leftoverBuffer.length := by
  have block : (zeroFilled 1024 bytes).length = 1024 := by
    rw [length_zeroFilled, Nat.max_eq_left hle]
  rw [readUntilToken, tokenLoop_of_missing h (by rw [first_block]; exact missing),
    first_block, List.nil_append] at returned
  rcases hloop : tokenLoop P token s.socket.incoming.length (zeroFilled 1024 bytes)
    (zeroFilled 1024 bytes) (s.socket.recv 1024).2 with ⟨e | ⟨buffer, position⟩, k⟩
  · rw [hloop] at returned
    cases returned
  · cases position with
    | none =>
      rw [hloop] at returned
      cases returned
    | some position =>
      have sizes := tokenLoop_sizes block (congrArg Prod.fst hloop)
      rw [hloop] at returned
      cases returned
      simp only [List.length_append, List.length_take, List.length_drop]
      omega

/-- Both classes return the same and leave the same `leftoverBuffer`. -/
def Agree (P : Platform) (token : Bytes) (s : Stream) : Prop :=
  (readUntilToken P token s).map (fun read => (read.1, read.2.leftoverBuffer)) =
    some ((PlainStream.readUntilToken token s).1,
      (PlainStream.readUntilToken token s).2.leftoverBuffer)

/-- The parts around the token determine what was searched. -/
theorem eq_of_parts {block block' : Bytes} {position' : ℕ}
    (found : findFirst token block = some position)
    (found' : findFirst token block' = some position')
    (front : block.take position = block'.take position')
    (back : block.drop (position + token.length) = block'.drop (position' + token.length)) :
    block = block' := by
  rw [← List.take_append_drop (position + token.length) block, take_of_findFirst found, front, back,
    ← take_of_findFirst found', List.take_append_drop]

/-- The two classes agree on a token that comes, exactly when what `PlainStream` has to read is the
first block of `SSLStream`: the bytes of the first call, filled up with zeros. -/
theorem readUntilToken_agree_iff (P : Platform) (nonempty : token ≠ [])
    (fresh : s.leftoverBuffer = []) (contained : token <:+: (s.socket.chunks 1024).flatten) :
    Agree P token s ↔ ∃ c, (s.socket.chunks 1024).head? = some c ∧
      upToToken token (s.socket.chunks 1024) [] = some (zeroFilled 1024 c) := by
  have absent : ¬ token <:+: [] := fun h => nonempty (List.infix_nil.mp h)
  cases hblock : upToToken token (s.socket.chunks 1024) [] with
  | none => exact absurd contained ((upToToken_eq_none_iff absent).mp hblock)
  | some block =>
    obtain ⟨position, k, found, plain, -⟩ := PlainStream.readUntilToken_found hblock
    obtain ⟨-, -, front, c, member, split, notYet⟩ := upToToken_spec absent hblock
    rcases recv_cases 1024 s.socket with ⟨bytes, hdata, -, hle, -⟩ | ⟨hstop, -⟩
    · have head : (s.socket.chunks 1024).head? = some bytes := by
        rw [chunks, reads_of_data hdata]
        rfl
      rw [Agree, plain, head, fresh]
      simp only [Option.some.injEq, exists_eq_left', List.nil_append]
      cases first : findFirst token (zeroFilled 1024 bytes) with
      | some position' =>
        rw [readUntilToken_of_found hdata first, fresh]
        simp only [Option.map_some, Option.some.injEq, Prod.mk.injEq, Except.ok.injEq,
          List.nil_append]
        constructor
        · rintro ⟨before, after⟩
          exact (eq_of_parts first found before after).symm
        · rintro rfl
          obtain rfl : position = position' := Option.some.inj (found.symm.trans first)
          exact ⟨rfl, rfl⟩
      | none =>
        refine iff_of_false (fun same => ?_) ?_
        · obtain ⟨⟨outcome, s'⟩, returned, parts⟩ := Option.map_eq_some_iff.mp same
          obtain ⟨rfl, leftover⟩ := Prod.mk.inj parts
          obtain ⟨small, large⟩ := readUntilToken_of_missing hdata hle first returned
          have inside := length_le_of_findFirst found
          -- the last chunk completes the token, so less than a chunk is left behind it
          have last : front.length < position + token.length := by
            by_contra before
            apply notYet
            rw [← findFirst_isSome_iff, ← @List.take_left _ front c, ← split,
              findFirst_take found (Nat.not_lt.mp before)]
            rfl
          have short := (mem_reads (by decide) c member).2
          have len := congrArg List.length split
          dsimp only at leftover
          rw [List.length_take] at small large
          rw [leftover, fresh, List.length_nil, List.length_drop] at large
          rw [List.length_append] at len
          omega
        · rintro rfl
          rw [first] at found
          cases found
    · rw [chunks, reads_of_stop hstop] at hblock
      cases hblock

/-- A first call that fills the block. -/
theorem readUntilToken_agree_full :
    Agree Platform.newestFirst [59]
      { socket := { schedule := [{ bytes := List.replicate 1023 97 ++ [59] }] } } := by
  have len : (List.replicate 1023 (97 : UInt8) ++ [59]).length = 1024 := by
    rw [List.length_append, List.length_replicate, List.length_singleton]
  have delivered := @chunks_schedule 1024 [List.replicate 1023 97 ++ [59]] (by
    rw [List.forall_mem_singleton]
    exact ⟨List.append_ne_nil_of_right_ne_nil _ (by decide), Nat.le_of_eq len⟩)
  rw [List.map_singleton] at delivered
  have inside : [59] <:+: List.replicate 1023 97 ++ [(59 : UInt8)] := List.infix_append' _ _ []
  have full : zeroFilled 1024 (List.replicate 1023 97 ++ [59]) = List.replicate 1023 97 ++ [59] :=
    zeroFilled_of_le (Nat.le_of_eq len.symm)
  apply (readUntilToken_agree_iff Platform.newestFirst (by decide) rfl _).mpr
  · rw [delivered]
    exact ⟨_, rfl, by rw [full, upToToken, List.nil_append, if_pos inside]⟩
  · rw [delivered, List.flatten_singleton]
    exact inside

/-- Behind four bytes `SSLStream` keeps the zeros of its block. -/
theorem readUntilToken_not_agree :
    ¬ Agree Platform.newestFirst CRLF { socket := { received := [97, 13, 10, 98] } } := by
  intro same
  have parts := Option.some.inj same
  exact absurd (congrArg (fun read => read.2[1]?) parts) (by decide)

end SSLStream

end Lightning
