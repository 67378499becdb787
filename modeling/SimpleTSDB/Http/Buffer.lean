import SimpleTSDB.Http.Connection
import SimpleTSDB.Http.Put
import SimpleTSDB.Printing

/-!
# The buffer of a put

`ApiPutHandler` allocates one byte more than the content length of the request, clears the buffer
and lets `mg_read` write as many bytes into it as the content length says. The content length is a
signed number, of which `new`, `memset` and `mg_read` make unsigned ones. A request with the content
length of its body is served like its body (`putRequest_eq`); `staysInside_iff` says for which
content lengths nothing is written behind the buffer.
-/

namespace SimpleTSDB.Http

open Memory

/-- `new char[content_length + 1]`, whose size has 64 bits: the number of bytes that are allocated;
`none` if it throws, because the size is negative or the memory does not suffice. -/
def newBuffer (alloc : ℕ → Bool) (contentLength : BitVec 64) : Option ℕ :=
  let size := contentLength + 1
  if size.toInt < 0 ∨ !alloc size.toNat then none else some size.toNat

/-- How the body is read: `new` throws, a write is behind the end of the buffer, or the buffer and
the result of `mg_read`. -/
inductive BodyRead where
  | threw
  | overran
  | done (buffer : Str) (len : ℤ)

/-- `ApiPutHandler` for a POST request, up to the call of `mg_read`. -/
def readBody (alloc : ℕ → Bool) (conn : Connection) : BodyRead :=
  match newBuffer alloc conn.contentLength with
  | none => .threw
  | some size =>
    -- `memset` clears what `new` has allocated
    let buffer := List.replicate size '\x00'
    let r := mgRead conn conn.contentLength.toNat
    match stores buffer r.writes with
    | none => .overran
    | some buffer => .done buffer r.ret

/-- `ApiPutHandler` for a POST request; `none` if it throws or writes behind its buffer. -/
def putRequest (alloc : ℕ → Bool) (conn : Connection) : Option (List Effect × ℕ) :=
  match readBody alloc conn with
  | .done buffer len => if 0 < len then putLoop (cstr buffer) 0 else some ([], 200)
  | _ => none

/-- With this content length, the buffer of the handler is larger than what `mg_read` may write; and
whatever the client sends, nothing is written behind the buffer, and there is a NUL in it. -/
structure StaysInside (c : BitVec 64) : Prop where
  larger : ∀ alloc size, newBuffer alloc c = some size → min c.toNat INT_MAX < size
  inside : ∀ alloc request conn, getRequest request = some conn → conn.contentLength = c →
    match readBody alloc conn with
    | .threw => True
    | .overran => False
    | .done buffer _ => '\x00' ∈ buffer

/-! ## The content lengths that are published -/

/-- Every content length is that of a request. -/
theorem exists_request (c : BitVec 64) (buffered : Str) (pulls : List Pull) :
    ∃ request, getRequest request = some
      { contentLength := c, contentLen := c.toInt, consumedContent := 0, isChunked := 0,
        chunkRemainder := 0, buffered, pulls } := by
  refine ⟨⟨"POST".toList, [("Content-Length".toList, exponentText c.toInt)], buffered, pulls⟩, ?_⟩
  have hheader : getHeader [("Content-Length".toList, exponentText c.toInt)]
      "Content-Length".toList = some (exponentText c.toInt) := by
    rw [getHeader, List.find?_cons_of_pos rfl]
    rfl
  have hne : exponentText c.toInt ≠ [] := by
    intro hnil
    have hread := readSign_exponentText c.toInt
    rw [hnil] at hread
    exact showNat_ne _ (Prod.mk.inj hread).2.symm
  unfold getRequest
  dsimp only
  rw [hheader]
  dsimp only
  rw [strtoll_exponentText]
  exact if_neg hne.symm

/-- What is allocated for a content length other than -1. -/
theorem newBuffer_eq {alloc : ℕ → Bool} {c : BitVec 64} {size : ℕ} (hc : c ≠ -1)
    (h : newBuffer alloc c = some size) : size = c.toNat + 1 := by
  obtain ⟨-, hsize⟩ := Option.ite_none_left_eq_some.mp h
  obtain rfl := Option.some.inj hsize
  have hlt := c.isLt
  have hmax : c.toNat ≠ 2 ^ 64 - 1 := fun heq => hc (BitVec.eq_of_toNat_eq heq)
  change (c.toNat + 1) % 2 ^ 64 = c.toNat + 1
  omega

/-- The connection of a request with a content length other than -1. -/
theorem getRequest_eq {request : Request} {conn : Connection} (h : getRequest request = some conn)
    (hc : conn.contentLength ≠ -1) : conn =
      { contentLength := conn.contentLength, contentLen := conn.contentLength.toInt,
        consumedContent := 0, isChunked := 0, chunkRemainder := 0,
        buffered := request.buffered, pulls := request.pulls } := by
  unfold getRequest at h
  dsimp only at h
  split at h
  · obtain ⟨-, h⟩ := Option.ite_none_left_eq_some.mp h
    obtain rfl := Option.some.inj h
    rfl
  · split at h
    · obtain rfl := Option.some.inj h
      exact absurd rfl hc
    · split at h
      · cases h
      · obtain rfl := Option.some.inj h
        exact absurd rfl hc
      · obtain rfl := Option.some.inj h
        exact absurd rfl hc

/-! ## A body that arrives -/

theorem pullAll_rest {conn : Connection} {rest : Str}
    (h : conn.pulls = [⟨rest, rest.length, false⟩]) :
    (pullAll conn rest.length).1 = rest.length ∧ (pullAll conn rest.length).2.1 = rest := by
  unfold pullAll
  rw [h]
  dsimp only
  split
  next hlen =>
    rw [List.length_eq_zero_iff] at hlen
    rw [hlen]
    exact ⟨rfl, rfl⟩
  next => simp

/-- The connection of a request, of whose body a part has arrived with the headers; the rest arrives
when it is read. -/
def arriving (c : BitVec 64) (buffered rest : Str) : Connection where
  contentLength := c
  contentLen := c.toInt
  consumedContent := 0
  isChunked := 0
  chunkRemainder := 0
  buffered := buffered
  pulls := [⟨rest, rest.length, false⟩]

/-- The whole body is read into the buffer. -/
theorem mgRead_arriving {c : BitVec 64} {buffered rest : Str}
    (hlen : c.toNat = (buffered ++ rest).length) (hmax : c.toNat ≤ INT_MAX) :
    (mgRead (arriving c buffered rest) c.toNat).ret = c.toNat ∧
      stores (List.replicate (c.toNat + 1) '\x00')
          (mgRead (arriving c buffered rest) c.toNat).writes =
        some (buffered ++ rest ++ ['\x00']) := by
  have hint : c.toInt = c.toNat := by
    refine BitVec.toInt_eq_toNat_of_lt ?_
    unfold INT_MAX at hmax
    omega
  rw [List.length_append] at hlen
  have hread : mgRead (arriving c buffered rest) c.toNat =
      mgReadInner (arriving c buffered rest) c.toNat := by
    unfold mgRead
    rw [if_neg (Nat.not_lt.mpr hmax)]
    rfl
  have hknown : ((c.toNat : ℕ) : ℤ) ≠ -1 := by omega
  rw [hread]
  rcases Nat.eq_zero_or_pos c.toNat with hzero | hpos
  · -- nothing is read of an empty body
    have hempty : buffered = [] ∧ rest = [] := by
      rw [← List.length_eq_zero_iff, ← List.length_eq_zero_iff]
      omega
    obtain ⟨rfl, rfl⟩ := hempty
    simp [mgReadInner, arriving, hint, hzero, stores]
  · have hbuffered : buffered.take c.toNat = buffered := List.take_of_length_le (by omega)
    have hrest : c.toNat - buffered.length = rest.length := by omega
    obtain ⟨hret, hbytes⟩ := @pullAll_rest
      { arriving c buffered rest with consumedContent := buffered.length } rest rfl
    simp only [arriving, hint] at hret hbytes
    simp only [mgReadInner, arriving, hint, if_true, zero_ne_one, if_false, hknown, Nat.cast_zero,
      Int.natCast_pos, hpos, sub_zero, Int.toNat_natCast, gt_iff_lt, Nat.not_lt.mpr hmax,
      lt_self_iff_false, List.drop_zero, hbuffered, Nat.zero_add, hrest, hret, hbytes,
      Int.natCast_nonneg]
    refine ⟨by omega, ?_⟩
    rw [stores_adjacent (by rw [List.length_replicate]; omega), List.drop_replicate,
      show c.toNat + 1 - (buffered.length + rest.length) = 1 by omega]
    rfl

/-- **A body that arrives is handled**: a request with the content length of its body is served like
the body. -/
theorem putRequest_eq {alloc : ℕ → Bool} {request : Request} {conn : Connection} {rest : Str}
    (h : getRequest request = some conn) (hpulls : request.pulls = [⟨rest, rest.length, false⟩])
    (halloc : newBuffer alloc conn.contentLength ≠ none)
    (hlen : conn.contentLength.toNat = (request.buffered ++ rest).length)
    (hmax : conn.contentLength.toNat ≤ INT_MAX) :
    putRequest alloc conn = apiPutHandler "POST".toList (request.buffered ++ rest) := by
  have hc : conn.contentLength ≠ -1 := by
    intro hc
    rw [hc] at hmax
    exact absurd hmax (by decide)
  have hconn : conn = arriving conn.contentLength request.buffered rest := by
    refine (getRequest_eq h hc).trans ?_
    rw [hpulls]
    rfl
  obtain ⟨size, hsize⟩ := Option.ne_none_iff_exists'.mp halloc
  obtain ⟨hret, hstores⟩ := mgRead_arriving hlen hmax
  obtain rfl := newBuffer_eq hc hsize
  rw [← hconn] at hret hstores
  have hread : readBody alloc conn =
      .done (request.buffered ++ rest ++ ['\x00']) conn.contentLength.toNat := by
    unfold readBody
    simp only [hsize, hstores, hret]
  unfold putRequest apiPutHandler
  rw [hread, if_neg (not_not_intro rfl)]
  simp only [cstr_append_nul, ← hlen, Int.natCast_pos]

/-! ## Inside the buffer -/

/-- The writes of `mg_read` leave the last byte of a buffer that is larger alone. -/
theorem readBody_of_lt {alloc : ℕ → Bool} {conn : Connection} {size : ℕ}
    (h : newBuffer alloc conn.contentLength = some size)
    (hsize : min conn.contentLength.toNat INT_MAX < size) :
    ∃ buffer len, readBody alloc conn = .done buffer len ∧ '\x00' ∈ buffer := by
  have hle : min conn.contentLength.toNat INT_MAX ≤ (List.replicate size '\x00').length := by
    rw [List.length_replicate]
    omega
  obtain ⟨buffer, hstores, -, hdrop⟩ :=
    stores_of_below (mgRead_below conn conn.contentLength.toNat) hle
  refine ⟨buffer, (mgRead conn conn.contentLength.toNat).ret, ?_, ?_⟩
  · unfold readBody
    simp only [h, hstores]
  · refine List.mem_of_mem_drop (i := min conn.contentLength.toNat INT_MAX) ?_
    rw [hdrop, List.drop_replicate, List.mem_replicate]
    exact ⟨by omega, rfl⟩

/-- **The body stays inside the buffer if and only if** the content length is not -1. -/
theorem staysInside_iff (c : BitVec 64) : StaysInside c ↔ c ≠ -1 := by
  constructor
  · rintro h rfl
    -- nothing is allocated, and the first byte that has arrived is written
    obtain ⟨request, hrequest⟩ := exists_request (-1) ['a'] []
    exact h.inside (fun _ => true) request _ hrequest rfl
  · intro hc
    refine ⟨fun alloc size h => ?_, fun alloc request conn _ hconn => ?_⟩
    · rw [newBuffer_eq hc h]
      omega
    · cases hnew : newBuffer alloc conn.contentLength with
      | none =>
        unfold readBody
        rw [hnew]
        trivial
      | some size =>
        have hsize : min conn.contentLength.toNat INT_MAX < size := by
          rw [newBuffer_eq (hconn ▸ hc) hnew]
          omega
        obtain ⟨buffer, len, hread, hnul⟩ := readBody_of_lt hnew hsize
        rw [hread]
        exact hnul

/-- A request without a content length: no byte is allocated, and the body is written. -/
theorem not_staysInside : ¬ ∀ c : BitVec 64, StaysInside c := by
  intro h
  exact (h (-1)).inside (fun _ => true) ⟨"POST".toList, [], "a 1 2 k=v\n".toList, []⟩ _ rfl rfl

end SimpleTSDB.Http
