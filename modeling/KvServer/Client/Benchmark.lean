import KvServer.Store.Messages

/-!
# The benchmark client

`send_tcp_requests` of the benchmark client sends `m` messages at a time, all of them the same
GET, until it has counted `n - 100` of them.  The count and the bound are of type `uint32_t`.

*Wrapping.*  For `n < 100` the bound wraps around to more than `2 ^ 32 - 101`.  The count wraps
around if no multiple of `m` lies between the bound and `2 ^ 32`.  In both cases far more
than `n` messages are sent, or the loop does not end at all (`sendTcpRequests_bounded_iff`).

What `send` and `recv` return is not looked at, so the messages are those that are handed to
`send`.
-/

namespace KvServer.Client

/-! ## Multiples -/

/-- `n` rounded up to a multiple of `m`. -/
def roundUp (m n : Nat) : Nat := (n + m - 1) / m * m

theorem le_roundUp {m : Nat} (hm : 1 ≤ m) (n : Nat) : n ≤ roundUp m n := by
  have hdiv := Nat.div_add_mod (n + m - 1) m
  have hmod := Nat.mod_lt (n + m - 1) hm
  rw [Nat.mul_comm] at hdiv
  rw [roundUp]
  omega

theorem roundUp_lt {m : Nat} (hm : 1 ≤ m) (n : Nat) : roundUp m n < n + m := by
  have hle := Nat.div_mul_le_self (n + m - 1) m
  rw [roundUp]
  omega

/-- It is the least multiple that is not below `n`. -/
theorem roundUp_le {m n k : Nat} (hm : 1 ≤ m) (h : n ≤ k * m) : roundUp m n ≤ k * m := by
  have hlt : (n + m - 1) / m < k + 1 := by
    rw [Nat.div_lt_iff_lt_mul hm, Nat.succ_mul]
    omega
  exact Nat.mul_le_mul_right m (Nat.le_of_lt_succ hlt)

theorem roundUp_mono (m : Nat) {n n' : Nat} (h : n ≤ n') : roundUp m n ≤ roundUp m n' :=
  Nat.mul_le_mul_right m (Nat.div_le_div_right (Nat.sub_le_sub_right (Nat.add_le_add_right h m) 1))

/-! ## `send_tcp_requests` -/

/-- What the array of messages is filled with. -/
def message : SendMessage where
  operation := Operation.GET.code
  keepalive := 4
  key := Vector.replicate 16 0x20
  value := Vector.replicate 32 0xFF

/-- The `while` loop: what is handed to `send`, and `msgs_sent` at the end.  `none` means that
the fuel is used up. -/
def sendLoop (msgs_per_request : UInt16) (num_of_msgs_per_connection : UInt32) :
    Nat → UInt32 → Option (List SendMessage × UInt32)
  | 0, _ => none
  | fuel + 1, msgs_sent =>
      if msgs_sent < num_of_msgs_per_connection - 100 then
        (sendLoop msgs_per_request num_of_msgs_per_connection fuel
            (msgs_sent + msgs_per_request.toUInt32)).map fun (sent, count) =>
          (List.replicate msgs_per_request.toNat message ++ sent, count)
      else some ([], msgs_sent)

/-- `send_tcp_requests` -/
def sendTcpRequests (fuel : Nat) (msgs_per_request : UInt16) (num_of_msgs_per_connection : UInt32) :
    Option (List SendMessage × UInt32) :=
  sendLoop msgs_per_request num_of_msgs_per_connection fuel 0

/-- The loop ends, and `n` messages are sent, rounded up to a multiple of `m`, or fewer. -/
def Bounded (m : UInt16) (n : UInt32) : Prop :=
  ∃ fuel sent count, sendTcpRequests fuel m n = some (sent, count) ∧
    sent.length ≤ roundUp m.toNat n.toNat

variable {m : UInt16} {n : UInt32}

/-- The count moves on by `m`, modulo `2 ^ 32`. -/
theorem toNat_add (c : UInt32) (m : UInt16) :
    (c + m.toUInt32).toNat = (c.toNat + m.toNat) % 4294967296 := by
  rw [UInt32.toNat_add, UInt16.toNat_toUInt32]

theorem toNat_bound (n : UInt32) :
    (n - 100).toNat = if 100 ≤ n.toNat then n.toNat - 100 else n.toNat + 4294967196 := by
  have hn := n.toNat_lt
  have hsub : (n - 100).toNat = (4294967296 - 100 + n.toNat) % 4294967296 := UInt32.toNat_sub n 100
  rw [hsub]
  split <;> omega

/-- When the loop ends, the count is not below the bound.  It is the number of messages, modulo
`2 ^ 32`. -/
theorem sendLoop_ends {fuel : Nat} {c count : UInt32} {sent : List SendMessage}
    (h : sendLoop m n fuel c = some (sent, count)) :
    ∃ k, sent.length = k * m.toNat ∧
      (n - 100).toNat ≤ (c.toNat + k * m.toNat) % 4294967296 := by
  induction fuel generalizing c sent with
  | zero => cases h
  | succ fuel ih =>
      rw [sendLoop] at h
      split at h
      · obtain ⟨⟨sent', count'⟩, hrest, heq⟩ := Option.map_eq_some_iff.mp h
        cases heq
        obtain ⟨k, hlen, hbound⟩ := ih hrest
        rw [toNat_add, Nat.mod_add_mod, Nat.add_assoc, Nat.add_comm m.toNat] at hbound
        refine ⟨k + 1, ?_, ?_⟩
        · rw [List.length_append, List.length_replicate, hlen, Nat.succ_mul, Nat.add_comm]
        · rw [Nat.succ_mul]
          exact hbound
      · next hge =>
        cases h
        rw [UInt32.lt_iff_toNat_lt, Nat.not_lt] at hge
        refine ⟨0, by simp, ?_⟩
        rw [Nat.zero_mul, Nat.add_zero, Nat.mod_eq_of_lt count.toNat_lt]
        exact hge

/-- If `k` more batches bring the count to the bound and it does not wrap around before, the
loop ends after them at the latest. -/
theorem sendLoop_total (k : Nat) {c : UInt32} (hlt : c.toNat + k * m.toNat < 4294967296)
    (hbound : (n - 100).toNat ≤ c.toNat + k * m.toNat) :
    ∃ sent count, sendLoop m n (k + 1) c = some (sent, count) ∧ sent.length ≤ k * m.toNat := by
  induction k generalizing c with
  | zero =>
      have hge : ¬ c < n - 100 := by
        rw [UInt32.lt_iff_toNat_lt]
        omega
      exact ⟨[], c, if_neg hge, Nat.zero_le _⟩
  | succ k ih =>
      rw [Nat.succ_mul] at hlt hbound ⊢
      by_cases hc : c < n - 100
      · have hcount : (c + m.toUInt32).toNat = c.toNat + m.toNat := by
          rw [toNat_add, Nat.mod_eq_of_lt (by omega)]
        obtain ⟨sent, count, hrest, hlen⟩ := @ih (c + m.toUInt32) (by omega) (by omega)
        refine ⟨List.replicate m.toNat message ++ sent, count, ?_, ?_⟩
        · rw [sendLoop, if_pos hc, hrest, Option.map_some]
        · rw [List.length_append, List.length_replicate]
          omega
      · exact ⟨[], c, if_neg hc, Nat.zero_le _⟩

/-- The number of messages is bounded by `n` exactly if neither the bound nor the count wraps
around. -/
theorem sendTcpRequests_bounded_iff (hm : 1 ≤ m.toNat) :
    Bounded m n ↔ 100 ≤ n.toNat ∧ roundUp m.toNat (n.toNat - 100) < 4294967296 := by
  have hm16 : m.toNat < 65536 := m.toNat_lt
  have hn32 : n.toNat < 4294967296 := n.toNat_lt
  have hbound := toNat_bound n
  constructor
  · rintro ⟨fuel, sent, count, hrun, hlen⟩
    obtain ⟨k, hk, hends⟩ := sendLoop_ends hrun
    have hzero : (0 : UInt32).toNat = 0 := rfl
    have hup := roundUp_lt hm n.toNat
    rw [hk] at hlen
    rw [hzero, Nat.zero_add] at hends
    have hmod := Nat.mod_le (k * m.toNat) 4294967296
    by_cases hn : 100 ≤ n.toNat
    · rw [if_pos hn] at hbound
      refine ⟨hn, ?_⟩
      by_contra hge
      -- the count has gone over `2 ^ 32`, and what is left of it is below `m`
      have hleast := roundUp_le hm (show n.toNat - 100 ≤ k * m.toNat by omega)
      omega
    · rw [if_neg hn] at hbound
      omega
  · rintro ⟨hn, hlt⟩
    rw [if_pos hn] at hbound
    have hzero : (0 : UInt32).toNat = 0 := rfl
    have hle := le_roundUp hm (n.toNat - 100)
    obtain ⟨sent, count, hrun, hlen⟩ :=
      @sendLoop_total m n ((n.toNat - 100 + m.toNat - 1) / m.toNat) 0
        (by rw [hzero, Nat.zero_add]; exact hlt)
        (by rw [hzero, Nat.zero_add, hbound]; exact hle)
    exact ⟨_, sent, count, hrun, Nat.le_trans hlen (roundUp_mono m.toNat (Nat.sub_le n.toNat 100))⟩

theorem sendTcpRequests_bounded_iff_default : Bounded 1 1024 :=
  (sendTcpRequests_bounded_iff (by decide)).mpr (by decide)

/-- One message is asked for (`-n 1`), and more than four thousand million are sent. -/
theorem one_not_bounded : ¬ Bounded 1 1 := by
  rintro ⟨fuel, sent, count, hrun, hlen⟩
  obtain ⟨k, hk, hends⟩ := sendLoop_ends hrun
  have hbound : ((1 : UInt32) - 100).toNat = 4294967197 := rfl
  have hmod := Nat.mod_le ((0 : UInt32).toNat + k * (1 : UInt16).toNat) 4294967296
  have hup : roundUp (1 : UInt16).toNat (1 : UInt32).toNat = 1 := rfl
  have hzero : (0 : UInt32).toNat = 0 := rfl
  omega

end KvServer.Client
