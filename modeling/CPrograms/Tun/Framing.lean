import CPrograms.Tun.Model

/-!
# Framing round trip

`frames ps` are the packets `ps` on the wire.  `readN_spec` says what `read_n` does however
the stream is cut: it takes `n` bytes, or what is left of them.  `delivered ps k` are the
packets that the receiver writes if the stream ends after `k` bytes; one `receive` delivers
one of them (`receive_spec`), whatever `send`s stand between the `receive`s (`serve_spec`).
-/

namespace CPrograms.Tun

open Endian

/-! ## `read_n` -/

theorem cread_spec {fd : Sock} (h : none ∉ fd.answers) {n : Nat} (hn : 0 < n) :
    ∃ k cs, 0 < k ∧ k ≤ n ∧ none ∉ cs ∧
      cread fd n = some (fd.bytes.take k, ⟨fd.bytes.drop k, cs⟩) := by
  unfold cread
  rcases hans : fd.answers with _ | ⟨_ | c, cs⟩
  · exact ⟨n, [], hn, Nat.le_refl _, List.not_mem_nil, rfl⟩
  · rw [hans] at h
    exact absurd List.mem_cons_self h
  · rw [hans] at h
    exact ⟨min (max 1 c) n, cs, by omega, by omega, fun hc => h (List.mem_cons_of_mem _ hc), rfl⟩

/-- The loop reads on where the cut was. -/
theorem readLoop_spec {fd : Sock} (h : none ∉ fd.answers) (n : Nat) (got : List UInt8) :
    ∃ cs, none ∉ cs ∧ readLoop fd n got =
      some (decide (n ≤ fd.bytes.length), got ++ fd.bytes.take n, ⟨fd.bytes.drop n, cs⟩) := by
  induction n using Nat.strongRecOn generalizing fd got with
  | _ n ih =>
    rw [readLoop]
    by_cases hn : 0 < n
    · obtain ⟨k, cs, hk, hkn, hcs, hread⟩ := cread_spec h hn
      rw [if_pos hn, hread]
      dsimp only
      by_cases hend : (fd.bytes.take k).length = 0
      · -- the end of the stream
        have hnil : fd.bytes = [] := by
          rw [List.length_take] at hend
          exact List.length_eq_zero_iff.1 (by omega)
        refine ⟨cs, hcs, ?_⟩
        rw [if_pos hend, hnil]
        simp [Nat.ne_of_gt hn]
      · rw [if_neg hend]
        have hlen : (fd.bytes.take k).length = min k fd.bytes.length := List.length_take
        have hans : none ∉ (⟨fd.bytes.drop k, cs⟩ : Sock).answers := hcs
        obtain ⟨cs', hcs', hloop⟩ :=
          ih (n - (fd.bytes.take k).length) (by omega) hans (got ++ fd.bytes.take k)
        refine ⟨cs', hcs', ?_⟩
        rw [hloop]
        have htake : fd.bytes.take k ++ (fd.bytes.drop k).take (n - (fd.bytes.take k).length) =
            fd.bytes.take n := by
          by_cases hkl : k ≤ fd.bytes.length
          · rw [hlen, Nat.min_eq_left hkl, ← List.take_add, Nat.add_sub_cancel' hkn]
          · rw [List.take_of_length_le (by omega), List.drop_eq_nil_of_le (by omega), List.take_nil,
              List.append_nil, List.take_of_length_le (by omega)]
        have hdrop : (fd.bytes.drop k).drop (n - (fd.bytes.take k).length) = fd.bytes.drop n := by
          rw [List.drop_drop]
          by_cases hkl : k ≤ fd.bytes.length
          · rw [hlen, Nat.min_eq_left hkl, Nat.add_sub_cancel' hkn]
          · rw [List.drop_eq_nil_of_le (by omega), List.drop_eq_nil_of_le (by omega)]
        have hall : decide (n - (fd.bytes.take k).length ≤ (fd.bytes.drop k).length) =
            decide (n ≤ fd.bytes.length) := by
          rw [List.length_drop]
          exact decide_eq_decide.2 (by omega)
        dsimp only
        rw [List.append_assoc, htake, hdrop, hall]
    · obtain rfl : n = 0 := by omega
      exact ⟨fd.answers, h, by simp⟩

/-- **`read_n`.**  However the stream is cut. -/
theorem readN_spec {fd : Sock} (h : none ∉ fd.answers) (n : Nat) :
    ∃ cs, none ∉ cs ∧ readN fd n =
      some (if n ≤ fd.bytes.length then n else 0, fd.bytes.take n, ⟨fd.bytes.drop n, cs⟩) := by
  obtain ⟨cs, hcs, hloop⟩ := readLoop_spec h n []
  refine ⟨cs, hcs, ?_⟩
  rw [readN, hloop]
  simp only [decide_eq_true_eq, List.nil_append]

/-! ## Frames -/

/-- The length in network order, and the payload. -/
def frame (p : List UInt8) : List UInt8 := Host.little.bytes16 (Host.little.htons p.length) ++ p

def frames (ps : List (List UInt8)) : List UInt8 := (ps.map frame).flatten

/-- What the tap device reads: at least one byte, at most a buffer. -/
def Packet (p : List UInt8) : Prop := 1 ≤ p.length ∧ p.length ≤ bufsize

/-- The packets written if the stream of the frames of `ps` ends after `k` bytes. -/
def delivered : List (List UInt8) → Nat → List (List UInt8)
  | [], _ => []
  | p :: ps, k =>
    if k < 2 then []
    else if k < 2 + p.length then [[]]
    else p :: delivered ps (k - (2 + p.length))

@[simp] theorem length_frame (p : List UInt8) : (frame p).length = 2 + p.length := by
  rw [frame, List.length_append]
  rfl

@[simp] theorem frames_nil : frames [] = [] := rfl

@[simp] theorem frames_cons (p : List UInt8) (ps : List (List UInt8)) :
    frames (p :: ps) = frame p ++ frames ps := rfl

/-- Whatever was cut off, the complete frames are delivered, and nothing else but an empty
write. -/
theorem delivered_spec {ps : List (List UInt8)} (hps : ∀ p ∈ ps, Packet p) (k : Nat) :
    ∃ j ≤ ps.length, (frames (ps.take j)).length ≤ k ∧
      (j < ps.length → k < (frames (ps.take (j + 1))).length) ∧
      (delivered ps k).filter (fun p => p ≠ []) = ps.take j ∧
      ((frames ps).length ≤ k → delivered ps k = ps) := by
  induction ps generalizing k with
  | nil => exact ⟨0, Nat.le_refl _, Nat.zero_le _, fun h => absurd h (Nat.lt_irrefl 0), rfl, fun _ => rfl⟩
  | cons p ps ih =>
    obtain ⟨hp, hps⟩ := List.forall_mem_cons.1 hps
    have hne : p ≠ [] := List.ne_nil_of_length_pos hp.1
    rw [delivered]
    by_cases hk : k < 2 + p.length
    · -- the first frame is cut
      have hnone : (if k < 2 then [] else if k < 2 + p.length then [[]]
          else p :: delivered ps (k - (2 + p.length))).filter (fun p => p ≠ []) = [] := by
        rw [if_pos hk]
        split <;> simp
      refine ⟨0, Nat.zero_le _, Nat.zero_le _, fun _ => ?_, hnone, fun hle => ?_⟩
      · simpa using hk
      · rw [frames_cons, List.length_append, length_frame] at hle
        omega
    · obtain ⟨j, hj, hle, hlt, hfilter, hall⟩ := ih hps (k - (2 + p.length))
      rw [if_neg (by omega), if_neg hk]
      refine ⟨j + 1, Nat.succ_le_succ hj, ?_, fun hj' => ?_, ?_, fun hle => ?_⟩
      · rw [List.take_succ_cons, frames_cons, List.length_append, length_frame]
        omega
      · have := hlt (Nat.lt_of_succ_lt_succ hj')
        rw [List.take_succ_cons, frames_cons, List.length_append, length_frame]
        omega
      · rw [List.filter_cons_of_pos (by simpa using hne), hfilter, List.take_succ_cons]
      · rw [frames_cons, List.length_append, length_frame] at hle
        rw [hall (by omega)]

/-! ## The two ends -/

/-- **Send.**  A packet goes out as its frame. -/
theorem send_spec (s : Srv) {p : List UInt8} (hp : Packet p) :
    (send s (some p)).2 = .running ∧ (send s (some p)).1.sent = s.sent ++ frame p := by
  obtain ⟨-, hle⟩ := hp
  have htake : p.take bufsize = p := List.take_of_length_le hle
  have hmod : p.length % 2 ^ 16 = p.length := by
    simp only [bufsize] at hle
    omega
  refine ⟨rfl, ?_⟩
  show s.sent ++ Host.little.bytes16 (Host.little.htons ((p.take bufsize).length % 2 ^ 16)) ++
    (store s.buffer (p.take bufsize)).take ((p.take bufsize).length % 2 ^ 16) = _
  rw [htake, hmod, store, List.take_left, List.append_assoc]
  rfl

theorem serve_sends {ps : List (List UInt8)} (hps : ∀ p ∈ ps, Packet p) (s : Srv) :
    (serve s (ps.map fun p => .tap (some p))).1.sent = s.sent ++ frames ps := by
  induction ps generalizing s with
  | nil => exact (List.append_nil _).symm
  | cons p ps ih =>
    obtain ⟨hp, hps⟩ := List.forall_mem_cons.1 hps
    have hsent := (send_spec s hp).2
    show (serve (send s (some p)).1 (ps.map fun p => .tap (some p))).1.sent = _
    rw [ih hps, hsent, frames_cons, List.append_assoc]

/-- What is left to be received: the frames of `ps`, cut after `k` bytes. -/
structure Incoming (s : Srv) (ps : List (List UInt8)) (k : Nat) : Prop where
  bytes : s.net.bytes = (frames ps).take k
  answers : none ∉ s.net.answers
  packets : ∀ p ∈ ps, Packet p
  lenSize : s.packageLen.length = 2

/-- The length field, as `receive` gets it back. -/
theorem ntohs_stored {buf : List UInt8} (hsize : buf.length = 2) {n : Nat} (h : n < 2 ^ 16) :
    Host.little.ntohs (word (store buf (Host.little.bytes16 (Host.little.htons n)))) = n := by
  have hdrop : buf.drop (Host.little.bytes16 (Host.little.htons n)).length = [] :=
    List.drop_eq_nil_of_le (by rw [hsize]; exact Nat.le_refl 2)
  obtain ⟨a, b, hbytes, hword⟩ := bytes16_eq .big n
  rw [store, hdrop, List.append_nil, Host.bytes16_htons, hbytes]
  show Host.little.ntohs (Host.little.word16 a b) = n
  rw [Host.ntohs_word16, hword]
  exact Nat.mod_eq_of_lt h

theorem receive_short {s : Srv} (hans : none ∉ s.net.answers) (h : ¬ 2 ≤ s.net.bytes.length) :
    (receive s).2 = .left ∧ (receive s).1.tap = s.tap := by
  obtain ⟨cs, -, hread⟩ := readN_spec hans 2
  unfold receive
  rw [hread, if_neg h]
  exact ⟨rfl, rfl⟩

/-- With a complete length field for `n`, the `n` bytes behind it are the packet, or what is there of
them makes an empty write. -/
theorem receive_long {s : Srv} (hans : none ∉ s.net.answers) (h : 2 ≤ s.net.bytes.length) {n : Nat}
    (hn : Host.little.ntohs (word (store s.packageLen (s.net.bytes.take 2))) = n) (hle : n ≤ bufsize) :
    ∃ cs, none ∉ cs ∧ receive s =
      (⟨store s.buffer ((s.net.bytes.drop 2).take n), store s.packageLen (s.net.bytes.take 2),
        ⟨(s.net.bytes.drop 2).drop n, cs⟩, s.sent,
        s.tap ++ [(store s.buffer ((s.net.bytes.drop 2).take n)).take
          ((if n ≤ (s.net.bytes.drop 2).length then n else 0) % 2 ^ 16)]⟩, .running) := by
  obtain ⟨cs₀, hcs₀, hread⟩ := readN_spec hans 2
  have hans' : none ∉ (⟨s.net.bytes.drop 2, cs₀⟩ : Sock).answers := hcs₀
  obtain ⟨cs, hcs, hread'⟩ := readN_spec hans' n
  dsimp only at hread'
  have hgot : ((s.net.bytes.drop 2).take n).length ≤ n := List.length_take_le _ _
  refine ⟨cs, hcs, ?_⟩
  unfold receive
  rw [hread, if_pos h]
  dsimp only
  rw [if_neg (by decide), hn, hread']
  dsimp only
  rw [if_neg (by omega)]

/-- **Receive.**  It leaves the loop at the end of the stream, and else delivers one packet. -/
theorem receive_spec {s : Srv} {ps : List (List UInt8)} {k : Nat} (h : Incoming s ps k) :
    (delivered ps k = [] ∧ (receive s).2 = .left ∧ (receive s).1.tap = s.tap) ∨
    ∃ p ps' k', delivered ps k = p :: delivered ps' k' ∧ (receive s).2 = .running ∧
      (receive s).1.tap = s.tap ++ [p] ∧ Incoming (receive s).1 ps' k' := by
  obtain ⟨hbytes, hans, hps, hsize⟩ := h
  cases ps with
  | nil =>
    left
    rw [frames_nil, List.take_nil] at hbytes
    exact ⟨rfl, receive_short hans (by rw [hbytes]; decide)⟩
  | cons p ps =>
    obtain ⟨⟨hp1, hp2⟩, hps⟩ := List.forall_mem_cons.1 hps
    rw [frames_cons] at hbytes
    by_cases hk : k < 2
    · left
      have hshort : ¬ 2 ≤ s.net.bytes.length := by
        rw [hbytes, List.length_take]
        omega
      exact ⟨by rw [delivered, if_pos hk], receive_short hans hshort⟩
    · right
      have hlong : 2 ≤ s.net.bytes.length := by
        rw [hbytes, List.length_take, List.length_append, length_frame]
        omega
      -- the length field is complete
      have hhead : s.net.bytes.take 2 = Host.little.bytes16 (Host.little.htons p.length) := by
        rw [hbytes, List.take_take, Nat.min_eq_left (by omega), frame, List.append_assoc]
        rfl
      have hrest : s.net.bytes.drop 2 = (p ++ frames ps).take (k - 2) := by
        rw [hbytes, List.drop_take, frame, List.append_assoc]
        rfl
      have hfit : p.length < 2 ^ 16 := by
        simp only [bufsize] at hp2
        omega
      have hlen : Host.little.ntohs (word (store s.packageLen (s.net.bytes.take 2))) = p.length := by
        rw [hhead, ntohs_stored hsize hfit]
      have hstore : (store s.packageLen (s.net.bytes.take 2)).length = 2 := by
        rw [hhead, store, List.length_append, List.length_drop, hsize]
        rfl
      obtain ⟨cs, hcs, hrecv⟩ := receive_long hans hlong hlen hp2
      rw [hrecv]
      by_cases hcut : k < 2 + p.length
      · -- the payload is cut: an empty write, and nothing is left
        have hall : ¬ p.length ≤ (s.net.bytes.drop 2).length := by
          rw [hrest, List.length_take]
          omega
        refine ⟨[], [], 0, ?_, rfl, ?_, ?_, hcs, nofun, hstore⟩
        · rw [show [] :: delivered [] 0 = [[]] from rfl, delivered, if_neg hk, if_pos hcut]
        · rw [if_neg hall]
          rfl
        · rw [frames_nil, List.take_nil]
          exact List.drop_eq_nil_of_le (by omega)
      · have hall : p.length ≤ (s.net.bytes.drop 2).length := by
          rw [hrest, List.length_take, List.length_append]
          omega
        have hpay : (s.net.bytes.drop 2).take p.length = p := by
          rw [hrest, List.take_take, Nat.min_eq_left (by omega), List.take_left]
        refine ⟨p, ps, k - (2 + p.length), ?_, rfl, ?_, ?_, hcs, hps, hstore⟩
        · rw [delivered, if_neg hk, if_neg hcut]
        · rw [if_pos hall, Nat.mod_eq_of_lt hfit, hpay, store, List.take_left]
        · rw [hrest, List.drop_take, List.drop_left, Nat.sub_sub]

/-- How many of the turns are receptions. -/
def receptions (as : List Act) : Nat := (as.filter fun a => match a with | .net => true | _ => false).length

theorem serve_net_left {s : Srv} (h : (receive s).2 = .left) (as : List Act) :
    serve s (.net :: as) = receive s := by
  obtain ⟨t, hr⟩ : ∃ t, receive s = (t, .left) := ⟨_, Prod.ext rfl h⟩
  simp only [serve, act, hr]

theorem serve_net_running {s : Srv} (h : (receive s).2 = .running) (as : List Act) :
    serve s (.net :: as) = serve (receive s).1 as := by
  obtain ⟨t, hr⟩ : ∃ t, receive s = (t, .running) := ⟨_, Prod.ext rfl h⟩
  simp only [serve, act, hr]

/-- **The receiving end.**  Its own sends do not matter. -/
theorem serve_spec {s : Srv} {ps : List (List UInt8)} {k : Nat} (h : Incoming s ps k) {as : List Act}
    (has : .tap none ∉ as) :
    (serve s as).1.tap = s.tap ++ (delivered ps k).take (receptions as) ∧
      (serve s as).2 = if receptions as ≤ (delivered ps k).length then .running else .left := by
  induction as generalizing s ps k with
  | nil => exact ⟨(List.append_nil _).symm, rfl⟩
  | cons a as ih =>
    obtain ⟨hane, has'⟩ : Act.tap none ≠ a ∧ Act.tap none ∉ as := by
      simpa only [List.mem_cons, not_or] using has
    cases a with
    | tap r =>
      cases r with
      | none => exact absurd rfl hane
      | some packet =>
        have hinc : Incoming (send s (some packet)).1 ps k := ⟨h.bytes, h.answers, h.packets, rfl⟩
        exact ih hinc has'
    | net =>
      have hcount : receptions (.net :: as) = receptions as + 1 := rfl
      rcases receive_spec h with ⟨hd, hleft, htap⟩ | ⟨p, ps', k', hd, hrun, htap, hinc⟩
      · rw [serve_net_left hleft, htap, hleft, hd, hcount]
        exact ⟨by simp, (if_neg (by simp)).symm⟩
      · obtain ⟨h1, h2⟩ := ih hinc has'
        rw [serve_net_running hrun, h1, h2, htap, hd, hcount, List.take_succ_cons, List.append_assoc]
        simp

/-- **Round trip.**  `ps` are sent, the stream ends after `k` bytes and is cut in any way; the
receiver turns to the connection `receptions as` times, with sends of its own in between. -/
theorem framing_roundtrip (ps : List (List UInt8)) (hps : ∀ p ∈ ps, Packet p) (k : Nat)
    (cuts : List (Option Nat)) (hcuts : none ∉ cuts) (as : List Act) (has : .tap none ∉ as) :
    let sent := (serve (start ⟨[], []⟩) (ps.map fun p => .tap (some p))).1.sent
    let t := serve (start ⟨sent.take k, cuts⟩) as
    t.1.tap = (delivered ps k).take (receptions as) ∧
      (t.2 = if receptions as ≤ (delivered ps k).length then .running else .left) ∧
      (sent.length ≤ k → delivered ps k = ps) ∧
      ∃ j ≤ ps.length, (frames (ps.take j)).length ≤ k ∧
        (j < ps.length → k < (frames (ps.take (j + 1))).length) ∧
        (delivered ps k).filter (fun p => p ≠ []) = ps.take j := by
  intro sent t
  have hsent : sent = frames ps := serve_sends hps _
  have hinc : Incoming (start ⟨sent.take k, cuts⟩) ps k := ⟨by rw [hsent]; rfl, hcuts, hps, rfl⟩
  obtain ⟨htap, hend⟩ := serve_spec hinc has
  obtain ⟨j, hj, hle, hlt, hfilter, hall⟩ := delivered_spec hps k
  exact ⟨htap, hend, by rw [hsent]; exact hall, j, hj, hle, hlt, hfilter⟩

/-- The packets `[1, 2]`, `[3]` and `[4, 5]`; the stream ends within the third, and every byte
comes alone. -/
theorem framing_roundtrip_cut :
    let sent := (serve (start ⟨[], []⟩) [.tap (some [1, 2]), .tap (some [3]), .tap (some [4, 5])]).1.sent
    let t := serve (start ⟨sent.take 10, List.replicate 10 (some 1)⟩) [.net, .tap (some [9]), .net, .net, .net]
    t.1.tap = [[1, 2], [3], []] ∧ t.2 = .left := by
  obtain ⟨htap, hend, -, -⟩ := framing_roundtrip [[1, 2], [3], [4, 5]]
    (by unfold Packet; decide) 10 (List.replicate 10 (some 1)) (by decide)
    [.net, .tap (some [9]), .net, .net, .net] (by simp)
  exact ⟨htap, hend⟩

end CPrograms.Tun
