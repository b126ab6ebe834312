import ForwardProxy.Http.AclHost

/-!
# The port that an authority writes

`split_authority` converts the digits after the last colon with `atoi` and checks the range of what
it gets, which is the value as a 32-bit `int`. So a value that is out of range is ignored, except
where its low 32 bits are a port again (`splitAuthority_iff`).
-/

namespace ForwardProxy

/-- The port that the digits `d` write: their value if it is a port, and the default otherwise. -/
def writtenPort (d : Bytes) : ℤ :=
  if 1 ≤ decimalValue d ∧ decimalValue d ≤ 65535 then decimalValue d else 80

/-- The digits `d` are no port, but `atoi` makes one of them, which is not the default: their value
fits into a `long`, not into an `int`, and its low 32 bits are in range. -/
def WrapsToPort (d : Bytes) : Prop :=
  2^32 ≤ decimalValue d ∧ decimalValue d < 2^63 ∧ 1 ≤ decimalValue d % 2^32 ∧
    decimalValue d % 2^32 ≤ 65535 ∧ decimalValue d % 2^32 ≠ 80

/-- `atoi` of digits: the clamped `long` is -1 as an `int`. -/
theorem atoi_digits {d : Bytes} (hne : d ≠ []) (hd : d.all isDigit) :
    atoi d = if decimalValue d < 2^63 then (decimalValue d : ℤ).bmod (2^32) else -1 := by
  have hread := strtol_digits_append hne hd (t := []) (by simp)
  rw [List.append_nil] at hread
  rw [atoi, hread]
  by_cases hv : decimalValue d < 2^63
  · rw [if_pos hv, if_neg (by unfold LONG_MAX; omega)]
  · rw [if_neg hv, if_pos (by unfold LONG_MAX; omega)]
    decide

/-- An `int` that is in the range of ports is the low half of the `long`. -/
theorem bmod_port (v : ℕ) : 0 < (v : ℤ).bmod (2^32) ∧ (v : ℤ).bmod (2^32) < 65536 ↔
    1 ≤ v % 2^32 ∧ v % 2^32 ≤ 65535 := by
  rw [Int.bmod_def]
  split <;> omega

/-- A port is the low half of its number. -/
theorem bmod_of_port {v : ℕ} (h : v % 2^32 ≤ 65535) : (v : ℤ).bmod (2^32) = (v % 2^32 : ℕ) := by
  rw [Int.bmod_def, if_pos (by omega)]
  omega

/-- The port of `h:d` in terms of the value of `d`. -/
theorem port_splitAuthority (h : Bytes) {d : Bytes} (hne : d ≠ []) (hd : d.all isDigit) :
    (splitAuthority (h ++ COLON :: d)).port =
      if decimalValue d < 2^63 ∧ 1 ≤ decimalValue d % 2^32 ∧ decimalValue d % 2^32 ≤ 65535
      then ((decimalValue d % 2^32 : ℕ) : ℤ) else 80 := by
  rw [splitAuthority_digits h hne hd, atoi_digits hne hd]
  dsimp only
  by_cases hv : decimalValue d < 2^63
  · rw [if_pos hv]
    by_cases hport : 1 ≤ decimalValue d % 2^32 ∧ decimalValue d % 2^32 ≤ 65535
    · rw [if_pos ((bmod_port _).mpr hport), if_pos ⟨hv, hport⟩, bmod_of_port hport.2]
    · rw [if_neg (mt (bmod_port _).mp hport), if_neg fun h => hport h.2]
  · rw [if_neg hv, if_neg (by decide), if_neg fun h => hv h.1]

/-- Where an authority is `h:d`, the port is the one that `d` writes exactly when `atoi` does not
make another of it. An authority that ends in no `:d` is a host with the default port. -/
theorem splitAuthority_iff (s : Bytes) :
    (∀ h d, s = h ++ COLON :: d → d ≠ [] → d.all isDigit →
      (splitAuthority s = { host := h, port := writtenPort d } ↔ ¬WrapsToPort d)) ∧
      ((∀ h d, s = h ++ COLON :: d → COLON ∉ d → d = [] ∨ ¬d.all isDigit) →
        splitAuthority s = { host := s, port := 80 }) := by
  refine ⟨?_, splitAuthority_whole⟩
  rintro h d rfl hne hd
  have hhost := host_splitAuthority h hne hd
  have hport := port_splitAuthority h hne hd
  have hiff : splitAuthority (h ++ COLON :: d) = { host := h, port := writtenPort d } ↔
      (splitAuthority (h ++ COLON :: d)).port = writtenPort d := by
    constructor
    · intro heq
      rw [heq]
    · intro heq
      calc splitAuthority (h ++ COLON :: d) =
            { host := (splitAuthority (h ++ COLON :: d)).host
              port := (splitAuthority (h ++ COLON :: d)).port } := rfl
        _ = { host := h, port := writtenPort d } := congrArg₂ Upstream.mk hhost heq
  rw [hiff, hport]
  unfold writtenPort WrapsToPort
  split <;> split <;> omega

/-- A port with leading zeros, and an authority without one. -/
theorem splitAuthority_written :
    splitAuthority (str "h.com" ++ COLON :: str "008080") = { host := str "h.com", port := 8080 } ∧
      splitAuthority (str "h.com") = { host := str "h.com", port := 80 } := by
  refine ⟨?_, (splitAuthority_iff (str "h.com")).2 fun h d hs _ => ?_⟩
  · exact ((splitAuthority_iff _).1 (str "h.com") (str "008080") rfl (by decide) (by decide)).mpr
      fun h => absurd h.1 (by decide)
  · have hmem : COLON ∈ str "h.com" := by simp [hs]
    exact absurd hmem (by decide)

/-- The digits of 2^32 + 8080 write no port, and are read as the port 8080. -/
theorem splitAuthority_wrapped :
    (str "4294975376").all isDigit ∧ writtenPort (str "4294975376") = 80 ∧
      splitAuthority (str "h.com" ++ COLON :: str "4294975376") =
        { host := str "h.com", port := 8080 } := by
  decide +kernel

end ForwardProxy
