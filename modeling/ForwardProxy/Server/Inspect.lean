import ForwardProxy.Http.Framing
import ForwardProxy.Http.HeaderEnd
import ForwardProxy.Server.Connection

/-!
# What the serving loop makes of a buffer

A request that is served is the parse of the buffer, takes up its head and its body, and lies in the
buffer as a whole (`inspect_ready_iff`). It is told from the bytes that it takes up
(`inspect_take`).
-/

namespace ForwardProxy

/-! ## Verdicts -/

/-- A buffer within the limits is far below the size of the machine word. -/
theorem lt_of_le_total {n : ℕ} (h : n ≤ maxHeaderBytes + maxBodyBytes) : n < 2^63 := by
  unfold maxHeaderBytes maxBodyBytes at h
  omega

/-- A request is ready when it is valid and all of its bytes are there. -/
theorem inspect_ready_iff {buf : Bytes} (hbuf : buf.length < 2^63) {req : Request} {need : ℕ} :
    inspect buf = .ready req need ↔ req = parseRequest buf ∧ req.valid = true ∧
      need = req.headerBytes + req.contentLength.toNat ∧ need ≤ buf.length := by
  unfold inspect
  constructor
  · intro h
    split at h
    · split at h <;> cases h
    · rename_i e he
      dsimp only at h
      split at h
      · cases h
      · rename_i hvalid
        rw [Bool.not_eq_true', Bool.not_eq_false] at hvalid
        split at h
        · cases h
        · rename_i hlen
          cases h
          have hhead := headerEnd_le_length (headerEnd_of_valid hvalid)
          exact ⟨rfl, hvalid, expectedRequestBytes_eq hbuf hhead, by omega⟩
  · rintro ⟨rfl, hvalid, rfl, hlen⟩
    have hend := headerEnd_of_valid hvalid
    have hneed := expectedRequestBytes_eq hbuf (headerEnd_le_length hend)
    rw [hend]
    simp only [hvalid, Bool.not_true, Bool.false_eq_true, if_false]
    rw [hneed, if_neg (by omega)]

/-- A head is too large only where its end is not found. -/
theorem inspect_headerTooLarge_iff {buf : Bytes} :
    inspect buf = .headerTooLarge ↔ findHeaderEnd buf = none ∧ maxHeaderBytes < buf.length := by
  unfold inspect
  cases hend : findHeaderEnd buf with
  | none =>
    dsimp only
    split
    · rename_i hlen
      simp [hlen]
    · rename_i hlen
      simp [hlen]
  | some e =>
    dsimp only
    repeat' split
    all_goals simp

/-- A request takes up bytes, and no more than there are. -/
theorem inspect_ready_bounds {buf : Bytes} (hbuf : buf.length < 2^63) {req : Request} {need : ℕ}
    (h : inspect buf = .ready req need) : 0 < need ∧ need ≤ buf.length := by
  obtain ⟨rfl, hvalid, hneed, hle⟩ := (inspect_ready_iff hbuf).mp h
  have hend := headerEnd_of_valid hvalid
  obtain ⟨t, -, -, hkind⟩ := findHeaderEnd_eq_some hend
  omega

/-- A buffer in which an end is found holds a bad request, or a valid one that is all there or not.
-/
theorem inspect_of_headerEnd {buf : Bytes} (hbuf : buf.length < 2^63) {e : ℕ}
    (h : findHeaderEnd buf = some e) :
    inspect buf =
      if (parseRequest buf).valid = false then .badRequest (parseRequest buf)
      else if buf.length < e + (parseRequest buf).contentLength.toNat then .needMore
      else .ready (parseRequest buf) (e + (parseRequest buf).contentLength.toNat) := by
  have hhead := headerBytes_parseRequest h
  have hneed := expectedRequestBytes_eq hbuf (hhead ▸ headerEnd_le_length h)
  rw [hhead] at hneed
  rw [inspect, h]
  simp only [hneed, Bool.not_eq_true']

/-- A request is told from the bytes that it takes up. -/
theorem inspect_take {buf : Bytes} (hbuf : buf.length < 2^63) {req : Request} {need m : ℕ}
    (h : inspect buf = .ready req need) (hm : need ≤ m) :
    ∃ req', inspect (buf.take m) = .ready req' need ∧
      req = { req' with raw := buf } ∧ req'.raw = buf.take m := by
  obtain ⟨rfl, hvalid, hneed, hle⟩ := (inspect_ready_iff hbuf).mp h
  have hend := headerEnd_of_valid hvalid
  have htake := headerEnd_take hend (show (parseRequest buf).headerBytes ≤ m by omega)
  -- The head lies before the cut, and so do the lines that the request is parsed from.
  have hparse : parseRequest buf = { parseRequest (buf.take m) with raw := buf } := by
    have hsplit := List.take_append_drop m buf
    have hend' :
        findHeaderEnd (buf.take m ++ buf.drop m) = some (parseRequest buf).headerBytes := by
      rw [hsplit]
      exact hend
    have happend := parseRequest_append htake hend'
    rw [hsplit] at happend
    rw [happend, ← headerBytes_parseRequest htake]
  have hlen : (buf.take m).length = min m buf.length := List.length_take
  refine ⟨parseRequest (buf.take m), ?_, hparse, raw_parseRequest _⟩
  rw [inspect_ready_iff (by omega)]
  rw [hparse] at hvalid hneed
  exact ⟨rfl, hvalid, hneed, by omega⟩

end ForwardProxy
