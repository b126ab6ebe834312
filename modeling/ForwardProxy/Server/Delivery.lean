import ForwardProxy.Server.SelfDelimited

/-!
# A response as the network delivers it

`Delivers` says what the `recv` calls on a connection may return where the peer sends some bytes and
closes, if at all, after the last of them: any segments, interrupted calls anywhere, and a timeout
or an error at any point. A message that says where it ends is then returned exactly where all of it
came before the first failure, and never a part of it (`fetchUpstream_delivers`).
-/

namespace ForwardProxy

/-- The results of `recv` where the peer sends `out`, and no EOF comes before all of it. -/
inductive Delivers : Bytes → List Recv → Prop
  | nil (out : Bytes) : Delivers out []
  | data {out : Bytes} {recvs : List Recv} (b : Byte) (bs : Bytes) (h : Delivers out recvs) :
    Delivers (b :: bs ++ out) (.data b bs :: recvs)
  | intr {out : Bytes} {recvs : List Recv} (h : Delivers out recvs) : Delivers out (.intr :: recvs)
  | again {out : Bytes} {recvs : List Recv} (h : Delivers out recvs) :
    Delivers out (.again :: recvs)
  | error {out : Bytes} {recvs : List Recv} (reason : Bytes) (h : Delivers out recvs) :
    Delivers out (.error reason :: recvs)
  | eof {recvs : List Recv} (h : Delivers [] recvs) : Delivers [] (.eof :: recvs)

/-- The bytes that come before the first EOF or failure. -/
def arrived : List Recv → Bytes
  | .data b bs :: recvs => b :: bs ++ arrived recvs
  | .intr :: recvs => arrived recvs
  | _ => []

/-- What has arrived is a start of what was sent. -/
theorem Delivers.arrived_prefix {out : Bytes} {recvs : List Recv} (h : Delivers out recvs) :
    ∃ more, out = arrived recvs ++ more := by
  induction h with
  | nil out => exact ⟨out, rfl⟩
  | data b bs _ ih =>
    obtain ⟨more, hmore⟩ := ih
    exact ⟨more, by rw [hmore, arrived, List.append_assoc]⟩
  | intr _ ih => exact ih
  | @again out => exact ⟨out, rfl⟩
  | @error out => exact ⟨out, rfl⟩
  | eof => exact ⟨[], rfl⟩

variable {h : ResponseHead} {body : Bytes}

/-- What comes of a turn with data, where the head is there: the end of the message, a failure
because it is too large, or more to read. -/
theorem checkBody_reading {buf more : Bytes} (hstop : h.StopsAt buf ↔ more = []) :
    checkBody buf h.parsed =
      if maxBodyBytes < buf.length then .fail (str "upstream body too large")
      else if more = [] then .stop ⟨buf, some h.parsed⟩ else .more ⟨buf, some h.parsed⟩ := by
  by_cases hlarge : maxBodyBytes < buf.length
  · rw [checkBody, if_pos hlarge, if_pos hlarge]
  · rw [checkBody_parsed (Nat.not_lt.mp hlarge), if_neg hlarge]
    by_cases hnil : more = []
    · rw [if_pos (hstop.mpr hnil), if_pos hnil]
    · rw [if_neg fun hs => hnil (hstop.mp hs), if_neg hnil]

/-- From any point before the end of the message, the loop comes to the whole of it or to a failure.
-/
theorem fetchLoop_delivers (hfits : h.text.length ≤ maxHeaderBytes)
    (hstop : ∀ buf more, h.text ++ body = buf ++ more → (h.StopsAt buf ↔ more = []))
    {out : Bytes} {recvs : List Recv} (hd : Delivers out recvs) {s : FetchState} (hs : Reading h s)
    (hcut : s.buf ++ out = h.text ++ body) (hout : out ≠ []) :
    ((h.text ++ body).length ≤ maxBodyBytes ∧ arrived recvs = out →
        fetchLoop s recvs = .ok ⟨h.text ++ body, some h.parsed⟩) ∧
      (¬((h.text ++ body).length ≤ maxBodyBytes ∧ arrived recvs = out) →
        ∃ e, fetchLoop s recvs = .error e) := by
  induction hd generalizing s with
  | nil out => exact ⟨fun hall => absurd hall.2.symm hout, fun _ => ⟨_, rfl⟩⟩
  | again _ _ => exact ⟨fun hall => absurd hall.2.symm hout, fun _ => ⟨_, rfl⟩⟩
  | error reason _ _ => exact ⟨fun hall => absurd hall.2.symm hout, fun _ => ⟨_, rfl⟩⟩
  | eof _ _ => exact absurd rfl hout
  | intr _ ih => exact ih hs hcut hout
  | @data out recvs b bs hd ih =>
    rw [← List.append_assoc] at hcut
    have hlen := congrArg List.length hcut
    rw [List.length_append] at hlen
    have hsame : arrived (.data b bs :: recvs) = b :: bs ++ out ↔ arrived recvs = out :=
      List.append_cancel_left_eq ..|>.to_iff
    rw [hsame, fetchLoop, fetchTurn, fetchData_reading hfits hs hcut.symm]
    by_cases hshort : (s.buf ++ b :: bs).length < h.text.length
    · -- The head is not all there, so something is still to come.
      have hmore : out ≠ [] := by
        rintro rfl
        have htext : h.text.length ≤ (h.text ++ body).length := by simp
        rw [List.length_nil] at hlen
        omega
      rw [if_pos hshort]
      exact ih (if_pos hshort).symm hcut hmore
    · rw [if_neg hshort, checkBody_reading (hstop _ _ hcut.symm)]
      -- The head is there. The loop fails once the buffer is too large, and else stops with the
      -- last byte.
      by_cases hlarge : maxBodyBytes < (s.buf ++ b :: bs).length
      · rw [if_pos hlarge]
        exact ⟨fun hall => absurd hall.1 (by omega), fun _ => ⟨_, rfl⟩⟩
      · rw [if_neg hlarge]
        by_cases hlast : out = []
        · subst hlast
          obtain ⟨more, hmore⟩ := hd.arrived_prefix
          rw [List.append_nil] at hcut
          rw [if_pos rfl, hcut]
          rw [hcut] at hlarge
          refine ⟨fun _ => rfl, fun hno => absurd ⟨by omega, ?_⟩ hno⟩
          exact (List.append_eq_nil_iff.mp hmore.symm).1
        · rw [if_neg hlast]
          exact ih (if_neg hshort).symm hcut hlast

/-- Whatever the message, it is returned as it is or not at all. -/
theorem fetchUpstream_whole (hfits : h.text.length ≤ maxHeaderBytes)
    (hstop : ∀ buf more, h.text ++ body = buf ++ more → (h.StopsAt buf ↔ more = []))
    {recvs : List Recv} (hd : Delivers (h.text ++ body) recvs) :
    ((h.text ++ body).length ≤ maxBodyBytes ∧ arrived recvs = h.text ++ body →
        fetchUpstream .sent recvs = { raw := h.text ++ body, status := h.status, ok := true }) ∧
      (¬((h.text ++ body).length ≤ maxBodyBytes ∧ arrived recvs = h.text ++ body) →
        ∃ e, fetchUpstream .sent recvs = { error := e }) := by
  have hne : h.text ++ body ≠ [] := fun hnil => h.text_ne_nil (List.append_eq_nil_iff.mp hnil).1
  obtain ⟨hwhole, hpart⟩ := fetchLoop_delivers hfits hstop hd (reading_empty h) rfl hne
  constructor
  · intro hall
    rw [fetchUpstream, hwhole hall]
    exact fetchDone_parsed body
  · intro hno
    obtain ⟨e, he⟩ := hpart hno
    exact ⟨e, by rw [fetchUpstream, he]⟩

/-- A peer that sends nothing is never answered for. -/
theorem fetchUpstream_nothing {recvs : List Recv} (hd : Delivers [] recvs) :
    ∃ e, fetchUpstream .sent recvs = { error := e } := by
  have hloop : ∀ out recvs, Delivers out recvs → out = [] →
      fetchLoop {} recvs = .ok {} ∨ ∃ e, fetchLoop {} recvs = .error e := by
    intro out recvs hd hout
    induction hd with
    | nil => exact Or.inr ⟨_, rfl⟩
    | data b bs _ _ => cases hout
    | intr _ ih => exact ih hout
    | again _ _ => exact Or.inr ⟨_, rfl⟩
    | error reason _ _ => exact Or.inr ⟨_, rfl⟩
    | eof _ _ => exact Or.inl rfl
  rcases hloop [] recvs hd rfl with h | ⟨e, h⟩
  · exact ⟨_, by rw [fetchUpstream, h]; rfl⟩
  · exact ⟨e, by rw [fetchUpstream, h]⟩

end ForwardProxy
