import SimpleTSDB.Foundations.Memory
import SimpleTSDB.Numeric

/-!
# Reading the body of a request

The part of civetweb that a handler reads the body of a request with: `get_request` takes the
content length from the headers, and `mg_read` copies the body into the buffer of the handler, from
the bytes that have arrived with the headers, from the socket and, if the body is chunked, chunk by
chunk. What the socket yields in a call is decided by the environment (`Pull`). A read gives the
writes to the buffer: wherever the bytes come from, they stay in front of the length that is passed
(`mgRead_below`).
-/

namespace SimpleTSDB.Http

open Memory

def INT_MAX : ℕ := 2 ^ 31 - 1

def INT64_MAX : ℤ := 2 ^ 63 - 1

/-- What the socket yields for one call of `pull_all`: the bytes that are stored, how many of them
are counted (a server that is being stopped drops the last ones), and whether it fails. -/
structure Pull where
  bytes : Str
  counted : ℕ
  failed : Bool

/-- The connection of a request: the content length that the handler sees, the content length and
the state of civetweb, the bytes that have arrived behind the headers, and the socket. -/
structure Connection where
  contentLength : BitVec 64
  contentLen : ℤ
  consumedContent : ℕ
  isChunked : ℕ
  chunkRemainder : ℕ
  buffered : Str
  pulls : List Pull

/-! ## The content length -/

/-- A request whose method and headers have been parsed. -/
structure Request where
  method : Str
  headers : List (Str × Str)
  buffered : Str
  pulls : List Pull

/-- `mg_strcasecmp`, for equality. -/
def mgStrcasecmp (s t : Str) : Bool := s.map tolower == t.map tolower

/-- `get_header`. -/
def getHeader (headers : List (Str × Str)) (name : Str) : Option Str :=
  (headers.find? fun h => mgStrcasecmp name h.1).map Prod.snd

/-- `get_http_method_info`, as far as it says whether a request has a body. -/
def requestHasBody (method : Str) : Option Bool :=
  [("GET".toList, false), ("POST".toList, true), ("PUT".toList, true), ("DELETE".toList, false),
    ("HEAD".toList, false), ("OPTIONS".toList, false), ("CONNECT".toList, true),
    ("PATCH".toList, true), ("PROPFIND".toList, false), ("MKCOL".toList, false),
    ("REPORT".toList, true)].lookup method

/-- `get_request`, behind the parsing of the headers; `none` for a bad request. -/
def getRequest (request : Request) : Option Connection :=
  -- `reset_per_request_attributes`
  let conn : Connection :=
    { contentLength := -1, contentLen := -1, consumedContent := 0, isChunked := 0,
      chunkRemainder := 0, buffered := request.buffered, pulls := request.pulls }
  match getHeader request.headers "Content-Length".toList with
  | some cl =>
    let (n, endptr) := strtoll cl
    if endptr = cl then none
    else some { conn with contentLen := n.toInt, contentLength := n }
  | none =>
    let te := getHeader request.headers "Transfer-Encoding".toList
    if te.any (mgStrcasecmp · "chunked".toList) then
      some { conn with isChunked := 1, contentLen := -1 }
    else
      match requestHasBody request.method with
      | none => none
      | some true => some { conn with contentLen := -1 }
      | some false => some { conn with contentLen := 0 }

/-! ## Reading -/

/-- `pull_all`: the result, the bytes that are stored, and the connection. -/
def pullAll (conn : Connection) (len : ℕ) : ℤ × Str × Connection :=
  match conn.pulls with
  | [] => (0, [], conn)
  | p :: pulls =>
    if len = 0 then (0, [], conn)
    else
      let bytes := p.bytes.take len
      let nread := min p.counted bytes.length
      let consumedContent := conn.consumedContent + nread
      (if nread = 0 ∧ p.failed then -1 else nread, bytes, { conn with consumedContent, pulls })

/-- A call that reads: its result, the writes to the buffer, and the connection. -/
structure Reading where
  ret : ℤ
  writes : List (ℕ × Str)
  conn : Connection

/-- `mg_read_inner`. -/
def mgReadInner (conn : Connection) (len : ℕ) : Reading :=
  let len64 := if len > INT_MAX then INT_MAX else len
  let conn :=
    if conn.consumedContent = 0 then
      if conn.isChunked = 1 then { conn with contentLen := len64, isChunked := 2 }
      -- the body is completed when the connection is closed
      else if conn.contentLen = -1 then { conn with contentLen := INT64_MAX }
      else conn
    else conn
  if conn.consumedContent < conn.contentLen then
    -- do not read more than the total content length of the request
    let leftToRead := (conn.contentLen - conn.consumedContent).toNat
    let len64 := if leftToRead < len64 then leftToRead else len64
    -- return buffered data
    let body := (conn.buffered.drop conn.consumedContent).take len64
    let nread := body.length
    let conn := { conn with consumedContent := conn.consumedContent + nread }
    -- read new data from the remote socket
    let (n, bytes, conn) := pullAll conn (len64 - nread)
    { ret := if 0 ≤ n then nread + n else if 0 < nread then nread else n
      writes := [(0, body), (nread, bytes)]
      conn }
  else { ret := 0, writes := [], conn }

/-- `mg_getc`; NUL at the end. -/
def mgGetc (conn : Connection) : Char × Connection :=
  let r := mgReadInner conn 1
  if r.ret ≤ 0 then ('\x00', r.conn) else ((r.writes.flatMap Prod.snd).headD '\x00', r.conn)

/-- The line with the size of a chunk, of which `lenbuf` has been read and `n` characters fit:
`none` if it is malformed. -/
def chunkSize : ℕ → Connection → Str → Option ℕ × Connection
  | 0, conn, _ => (none, conn)
  | n + 1, conn, lenbuf =>
    let (c, conn) := mgGetc { conn with contentLen := conn.contentLen + 1 }
    if 0 < lenbuf.length ∧ c = '\r' ∧ lenbuf.getLast? ≠ some '\r' then
      chunkSize n conn (lenbuf ++ [c])
    else if 1 < lenbuf.length ∧ c = '\n' ∧ lenbuf.getLast? = some '\r' then
      -- `strtoul`
      let size := min (digitsVal 16 (lenbuf.takeWhile isxdigit)) (2 ^ 64 - 1)
      let isChunked := if size = 0 then 3 else conn.isChunked
      if (lenbuf.dropWhile isxdigit).head? = some '\r' then (some size, { conn with isChunked })
      else (none, { conn with isChunked })
    else if !isxdigit c then (none, conn)
    else chunkSize n conn (lenbuf ++ [c])

/-- A round of `mg_read` that copies from the remainder of the last received chunk. -/
def copyChunk (conn : Connection) (len : ℕ) : Reading :=
  let readNow := if conn.chunkRemainder > len then len else conn.chunkRemainder
  let r := mgReadInner { conn with contentLen := conn.contentLen + readNow } readNow
  if r.ret < 1 then { r with ret := -1 }
  else
    let chunkRemainder := r.conn.chunkRemainder - r.ret.toNat
    let conn := { r.conn with chunkRemainder }
    if chunkRemainder = 0 then
      -- all data bytes of the chunk have been read, so we are expecting \r\n now
      let (x1, conn) := mgGetc { conn with contentLen := conn.contentLen + 2 }
      let (x2, conn) := mgGetc conn
      { r with ret := if x1 ≠ '\r' ∨ x2 ≠ '\n' then -1 else r.ret, conn }
    else { r with conn }

/-- The loop of `mg_read` over the chunks: `allRead` bytes have been read and `len` more fit. -/
def readChunks (conn : Connection) (len allRead : ℕ) (writes : List (ℕ × Str)) : Reading :=
  if len = 0 then { ret := allRead, writes, conn }
  else if conn.isChunked = 3 then { ret := 0, writes, conn }
  else if 0 < conn.chunkRemainder then
    let r := copyChunk conn len
    let writes := writes ++ shift allRead r.writes
    if r.ret < 1 then { r with writes }
    else readChunks r.conn (len - r.ret.toNat) (allRead + r.ret.toNat) writes
  else
    -- fetch a new chunk
    match chunkSize 63 conn [] with
    | (none, conn) => { ret := -1, writes, conn }
    | (some 0, conn) => { ret := allRead, writes, conn }
    | (some (size + 1), conn) =>
      let chunkRemainder := size + 1
      readChunks { conn with chunkRemainder } len allRead writes
termination_by (len, if 0 < conn.chunkRemainder then 0 else 1)
decreasing_by
  · refine Prod.Lex.left _ _ ?_
    have hret : ¬ (copyChunk conn len).ret < 1 := ‹_›
    omega
  · refine Prod.Lex.right _ ?_
    rw [if_pos, if_neg] <;> omega

/-- `mg_read`. -/
def mgRead (conn : Connection) (len : ℕ) : Reading :=
  let len := if len > INT_MAX then INT_MAX else len
  if conn.isChunked ≠ 0 then readChunks conn len 0 [] else mgReadInner conn len

/-! ## Where a read writes -/

theorem pullAll_spec (conn : Connection) (len : ℕ) :
    (pullAll conn len).1 ≤ len ∧ (pullAll conn len).2.1.length ≤ len := by
  unfold pullAll
  split
  · exact ⟨Int.natCast_nonneg len, Nat.zero_le len⟩
  · split
    · exact ⟨Int.natCast_nonneg len, Nat.zero_le len⟩
    · dsimp only
      have hlen := List.length_take_le len ‹Pull›.bytes
      refine ⟨?_, hlen⟩
      split <;> omega

/-- A read stays in front of the length, and so does its result. -/
theorem mgReadInner_spec (conn : Connection) (len : ℕ) :
    (mgReadInner conn len).ret ≤ len ∧ Below len (mgReadInner conn len).writes := by
  unfold mgReadInner
  extract_lets len64 conn' leftToRead len64' body nread conn''
  have hlen : len64 ≤ len := by
    unfold len64
    split <;> omega
  have hlen' : len64' ≤ len64 := by
    unfold len64'
    split <;> omega
  have hbody : nread ≤ len64' := List.length_take_le _ _
  split
  · obtain ⟨hret, hbytes⟩ := pullAll_spec conn'' (len64' - nread)
    generalize pullAll conn'' (len64' - nread) = p at hret hbytes ⊢
    obtain ⟨n, bytes, conn₃⟩ := p
    dsimp only at hret hbytes ⊢
    constructor
    · split
      · omega
      · split <;> omega
    · intro w hw
      rcases List.mem_pair.mp hw with rfl | rfl
      · change 0 + nread ≤ len
        omega
      · change nread + bytes.length ≤ len
        omega
  · exact ⟨Int.natCast_nonneg len, below_nil len⟩

theorem copyChunk_spec (conn : Connection) (len : ℕ) :
    (copyChunk conn len).ret ≤ len ∧ Below len (copyChunk conn len).writes := by
  unfold copyChunk
  extract_lets readNow r chunkRemainder conn'
  have hnow : readNow ≤ len := by
    unfold readNow
    split <;> omega
  obtain ⟨hret, hbelow⟩ := mgReadInner_spec
    { conn with contentLen := conn.contentLen + readNow } readNow
  change r.ret ≤ _ at hret
  change Below _ r.writes at hbelow
  have hret' : r.ret ≤ len := by omega
  split
  · exact ⟨by dsimp only; omega, hbelow.mono hnow⟩
  · split
    · refine ⟨?_, hbelow.mono hnow⟩
      dsimp only
      split <;> omega
    · exact ⟨hret', hbelow.mono hnow⟩

/-- **The chunks** that are read stay in front of the length. -/
theorem readChunks_below (conn : Connection) (len allRead : ℕ) (writes : List (ℕ × Str))
    (h : Below (allRead + len) writes) :
    Below (allRead + len) (readChunks conn len allRead writes).writes := by
  fun_induction readChunks conn len allRead writes with
  | case3 conn len allRead writes _ _ _ r writes' _ =>
    exact h.append ((copyChunk_spec conn len).2.shift allRead)
  | case4 conn len allRead writes _ _ _ r writes' _ ih =>
    obtain ⟨hret, hbelow⟩ := copyChunk_spec conn len
    -- what has been read and what still fits are together what fitted before
    have hsum : allRead + r.ret.toNat + (len - r.ret.toNat) = allRead + len := by
      change r.ret ≤ _ at hret
      omega
    rw [hsum] at ih
    exact ih (h.append (hbelow.shift allRead))
  | case7 conn len allRead writes _ _ _ _ _ _ _ ih => exact ih h
  | _ => exact h

/-- **`mg_read` writes in front of the length that it is passed**, and of the largest `int`. -/
theorem mgRead_below (conn : Connection) (len : ℕ) :
    Below (min len INT_MAX) (mgRead conn len).writes := by
  unfold mgRead
  extract_lets len'
  have hlen : len' = min len INT_MAX := by
    unfold len'
    split <;> omega
  rw [← hlen]
  split
  · have hchunks := readChunks_below conn len' 0 [] (below_nil _)
    rwa [Nat.zero_add] at hchunks
  · exact (mgReadInner_spec conn len').2

end SimpleTSDB.Http
