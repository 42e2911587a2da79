import Lightning.SSLStream
import Lightning.Lib.Search

/-!
# `readUntilToken`

Both classes read blocks of 1024 bytes from the socket until they have seen the token.
`PlainStream` appends what came and searches all of it. `SSLStream` reads into a block that keeps
the bytes of the calls before, searches that block alone, and appends all of it; the position it
finds counts from the start of the block, but it cuts the whole buffer there. `none` stands for the
iterators before the beginning of the buffer that it computes when the token was never found.
-/

namespace Lightning

open Search

/-- The state after the loop: what was read and where the token is in it. -/
abbrev TokenSearch := Bytes × Option ℕ

namespace PlainStream

/-- The `while` loop of `PlainStream::readUntilToken`. -/
def tokenLoop (token : Bytes) : ℕ → Bytes → Socket → Except CppException TokenSearch × Socket
  | 0, buffer, k => (.ok (buffer, none), k)
  | fuel + 1, buffer, k =>
      match k.recv 1024 with
      | (.fail errno, k) => (.error (.lowLevelApi "recv() failed" errno errno), k)
      | (.eof, k) => (.ok (buffer, none), k)
      | (.data bytes, k) =>
          match findFirst token (buffer ++ bytes) with
          | some tokenPosition => (.ok (buffer ++ bytes, some tokenPosition), k)
          | none => tokenLoop token fuel (buffer ++ bytes) k

def readUntilToken (token : Bytes) (s : Stream) : Except CppException Bytes × Stream :=
  match tokenLoop token (s.socket.incoming.length + 1) [] s.socket with
  | (.error e, k) => (.error e, { s with socket := k })
  | (.ok (buffer, none), k) => (.ok buffer, { s with socket := k })
  | (.ok (buffer, some tokenPosition), k) =>
      (.ok (buffer.take tokenPosition), { s with
        leftoverBuffer := s.leftoverBuffer ++ buffer.drop (tokenPosition + token.length)
        socket := k })

end PlainStream

namespace SSLStream

/-- The `while` loop of `SSLStream::readUntilToken`. An error that `handleReadError` lets pass ends
it only after the block was searched and appended once more. -/
def tokenLoop (P : Platform) (token : Bytes) :
    ℕ → Bytes → Bytes → Socket → Except CppException TokenSearch × Socket
  | 0, buffer, _, k => (.ok (buffer, none), k)
  | fuel + 1, buffer, chunk, k =>
      match SSL_read_ex P 1024 k with
      | (.error e, k) =>
          match handleReadError e with
          | .error thrown => (.error thrown, k)
          | .ok () => (.ok (buffer ++ chunk, findFirst token chunk), k)
      | (.ok bytes, k) =>
          let chunk := bytes ++ chunk.drop bytes.length
          match findFirst token chunk with
          | some tokenPosition => (.ok (buffer ++ chunk, some tokenPosition), k)
          | none => tokenLoop P token fuel (buffer ++ chunk) chunk k

def readUntilToken (P : Platform) (token : Bytes) (s : Stream) :
    Option (Except CppException Bytes × Stream) :=
  match tokenLoop P token (s.socket.incoming.length + 1) [] (List.replicate 1024 0) s.socket with
  | (.error e, k) => some (.error e, { s with socket := k })
  | (.ok (_, none), _) => none
  | (.ok (buffer, some tokenPosition), k) =>
      some (.ok (buffer.take tokenPosition), { s with
        leftoverBuffer := s.leftoverBuffer ++ buffer.drop (tokenPosition + token.length)
        socket := k })

end SSLStream

end Lightning
