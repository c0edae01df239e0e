/-
# The kernel's sockets and the clients

What the event loops see of the operating system: connections with bytes that have arrived
and not been read, and the table of open descriptors.  `accept` may return any descriptor
number that is not open.
-/
import Sunet.Io.Receive

namespace Sunet
namespace Io

/-- The sockets of the server and the state of its clients.  Connections are numbered in the
order in which the clients ask for them. -/
structure Net where
  /-- The number of connections so far. -/
  nextConn : ℕ
  /-- The connections that wait for `accept`. -/
  backlog : List ℕ
  /-- The bytes that have arrived on a connection and not been read. -/
  inbox : ℕ → Bytes
  /-- The client has closed its end. -/
  closed : ℕ → Bool
  /-- The connection behind an open descriptor. -/
  fds : ℕ → Option ℕ

/-- What a client does. -/
inductive ClientAction
  | connect
  | send (c : ℕ) (data : Bytes)
  | close (c : ℕ)

namespace Net

/-- No connection yet. -/
def init : Net where
  nextConn := 0
  backlog := []
  inbox := fun _ => []
  closed := fun _ => false
  fds := fun _ => none

/-- A step of a client. -/
def client (net : Net) : ClientAction → Option Net
  | .connect => some { net with
      nextConn := net.nextConn + 1, backlog := net.backlog ++ [net.nextConn] }
  | .send c data =>
    if c < net.nextConn ∧ net.closed c = false then
      some { net with inbox := Function.update net.inbox c (net.inbox c ++ data) }
    else none
  | .close c =>
    if c < net.nextConn then some { net with closed := Function.update net.closed c true }
    else none

/-- `accept` on the listening socket returns the number `n`. -/
def accept (svrFd : ℕ) (net : Net) (n : ℕ) : Option Net :=
  match net.backlog with
  | [] => none
  | c :: backlog =>
    -- the kernel gives out a number that is not open
    if n ≠ svrFd ∧ net.fds n = none then
      some { net with backlog := backlog, fds := Function.update net.fds n (some c) }
    else none

/-- `recv` on a descriptor returns `len` bytes, at least one and at most `buf_left`. -/
def recv (net : Net) (fd : ℕ) (len : ℕ) : Option (ℕ × Bytes × Net) :=
  match net.fds fd with
  | none => none
  | some c =>
    if 0 < len ∧ len ≤ bufLeft ∧ len ≤ (net.inbox c).length then
      some (c, (net.inbox c).take len,
        { net with inbox := Function.update net.inbox c ((net.inbox c).drop len) })
    else none

/-- `recv` on a descriptor can return this result without data. -/
def recvEnds (net : Net) (fd : ℕ) : RecvEnd → Bool
  | .again => (net.fds fd).any fun c => (net.inbox c).isEmpty && !net.closed c
  | .closed => (net.fds fd).any fun c => (net.inbox c).isEmpty && net.closed c
  | .error => true

/-- `close` on a descriptor. -/
def close (net : Net) (fd : ℕ) : Net := { net with fds := Function.update net.fds fd none }

/-- A descriptor has something to read. -/
def readable (svrFd : ℕ) (net : Net) (fd : ℕ) : Bool :=
  (fd == svrFd && !net.backlog.isEmpty) ||
    (net.fds fd).any fun c => !(net.inbox c).isEmpty || net.closed c

/-! ## Inversion -/

lemma client_cases {net net' : Net} {a : ClientAction} (h : net.client a = some net') :
    net'.fds = net.fds ∧ ((net'.nextConn = net.nextConn ∧ net'.backlog = net.backlog) ∨
      (net'.nextConn = net.nextConn + 1 ∧ net'.backlog = net.backlog ++ [net.nextConn])) := by
  cases a with
  | connect =>
    cases h
    exact ⟨rfl, Or.inr ⟨rfl, rfl⟩⟩
  | send c data =>
    rw [client] at h
    split at h
    · cases h
      exact ⟨rfl, Or.inl ⟨rfl, rfl⟩⟩
    · cases h
  | close c =>
    rw [client] at h
    split at h
    · cases h
      exact ⟨rfl, Or.inl ⟨rfl, rfl⟩⟩
    · cases h

lemma accept_cases {svrFd n : ℕ} {net net' : Net} (h : net.accept svrFd n = some net') :
    ∃ c backlog, net.backlog = c :: backlog ∧ n ≠ svrFd ∧ net.fds n = none ∧
      net' = { net with backlog := backlog, fds := Function.update net.fds n (some c) } := by
  rw [accept] at h
  split at h
  · cases h
  · next c backlog hbacklog =>
    split at h
    · next hn =>
      cases h
      exact ⟨c, backlog, hbacklog, hn.1, hn.2, rfl⟩
    · cases h

lemma recv_cases {net net' : Net} {fd : ℕ} {len : ℕ} {c : ℕ} {chunk : Bytes}
    (h : net.recv fd len = some (c, chunk, net')) :
    net.fds fd = some c ∧ IsChunk chunk ∧ net'.fds = net.fds ∧ net'.backlog = net.backlog ∧
      net'.nextConn = net.nextConn := by
  rw [recv] at h
  split at h
  · cases h
  · next c' hc =>
    split at h
    · next hlen =>
      cases h
      obtain ⟨hpos, hle, hin⟩ := hlen
      have hchunk : ((net.inbox c).take len).length = len := by
        rw [List.length_take]
        omega
      refine ⟨hc, ⟨?_, ?_⟩, rfl, rfl, rfl⟩
      · exact List.length_pos_iff.mp (by omega)
      · omega
    · cases h

/-! ## Reading until nothing is left -/

/-- Calls of `recv` one after the other, and the chunks that they return. -/
inductive Receives (fd c : ℕ) : Net → List Bytes → Net → Prop
  | nil (net : Net) : Receives fd c net [] net
  | cons {net net₁ net₂ : Net} {len : ℕ} {chunk : Bytes} {chunks : List Bytes}
      (hrecv : net.recv fd len = some (c, chunk, net₁))
      (hrest : Receives fd c net₁ chunks net₂) : Receives fd c net (chunk :: chunks) net₂

/-- All that has arrived on a connection can be read, by induction on its length. -/
lemma exists_receives {fd c : ℕ} :
    ∀ (n : ℕ) (net : Net), (net.inbox c).length ≤ n → net.fds fd = some c →
      ∃ chunks, Receives fd c net chunks
          { net with inbox := Function.update net.inbox c [] } ∧
        chunks.flatten = net.inbox c ∧ ∀ x ∈ chunks, IsChunk x := by
  intro n
  induction n with
  | zero =>
    intro net hlen hfd
    have hnil : net.inbox c = [] := List.length_eq_zero_iff.mp (by omega)
    refine ⟨[], ?_, hnil.symm, fun x hx => by cases hx⟩
    rw [← hnil, Function.update_eq_self]
    exact .nil net
  | succ n ih =>
    intro net hlen hfd
    by_cases hnil : net.inbox c = []
    · refine ⟨[], ?_, hnil.symm, fun x hx => by cases hx⟩
      rw [← hnil, Function.update_eq_self]
      exact .nil net
    · have hpos := List.length_pos_iff.mpr hnil
      -- each call takes as much as it may
      set len := min bufLeft (net.inbox c).length with hdef
      have hle : len ≤ bufLeft := Nat.min_le_left _ _
      have hin : len ≤ (net.inbox c).length := Nat.min_le_right _ _
      have hlenPos : 0 < len := by
        rw [hdef, bufLeft]
        omega
      set net₁ : Net :=
        { net with inbox := Function.update net.inbox c ((net.inbox c).drop len) } with hnet₁
      have hrecv : net.recv fd len = some (c, (net.inbox c).take len, net₁) := by
        rw [recv, hfd]
        exact if_pos ⟨hlenPos, hle, hin⟩
      have hinbox : net₁.inbox c = (net.inbox c).drop len := Function.update_self _ _ _
      obtain ⟨chunks, hrest, hflat, hchunks⟩ := ih net₁ (by
        rw [hinbox, List.length_drop]
        omega) hfd
      have hend : ({ net₁ with inbox := Function.update net₁.inbox c [] } : Net) =
          { net with inbox := Function.update net.inbox c [] } := by
        rw [hnet₁, Function.update_idem]
      rw [hend] at hrest
      refine ⟨(net.inbox c).take len :: chunks, .cons hrecv hrest, ?_, ?_⟩
      · rw [List.flatten_cons, hflat, hinbox, List.take_append_drop]
      · intro x hx
        rcases List.mem_cons.mp hx with rfl | hx
        · exact (recv_cases hrecv).2.1
        · exact hchunks x hx

/-! ## Connections and descriptors -/

/-- No connection stands behind two descriptors, and none that waits for `accept` behind
one. -/
structure WF (net : Net) : Prop where
  backlog_nodup : net.backlog.Nodup
  backlog_lt : ∀ c ∈ net.backlog, c < net.nextConn
  fds_lt : ∀ {f c}, net.fds f = some c → c < net.nextConn
  fds_inj : ∀ {f g c}, net.fds f = some c → net.fds g = some c → f = g
  fds_backlog : ∀ {f c}, net.fds f = some c → c ∉ net.backlog

/-- The connection has been accepted, and no other descriptor than this one stands for it. -/
structure AcceptedAs (net : Net) (f : ℕ) (c : ℕ) : Prop where
  lt : c < net.nextConn
  notMem : c ∉ net.backlog
  eq : ∀ {g}, net.fds g = some c → g = f

lemma wf_init : WF init where
  backlog_nodup := List.nodup_nil
  backlog_lt := fun _ h => by cases h
  fds_lt := fun h => by cases h
  fds_inj := fun h => by cases h
  fds_backlog := fun h => by cases h

lemma WF.acceptedAs {net : Net} (h : net.WF) {f : ℕ} {c : ℕ} (hc : net.fds f = some c) :
    net.AcceptedAs f c :=
  ⟨h.fds_lt hc, h.fds_backlog hc, fun hg => h.fds_inj hg hc⟩

/-- A step that keeps the queue of connections and the descriptors. -/
lemma WF.congr {net net' : Net} (h : net.WF) (hfds : net'.fds = net.fds)
    (hbacklog : net'.backlog = net.backlog) (hnext : net'.nextConn = net.nextConn) :
    net'.WF where
  backlog_nodup := hbacklog ▸ h.backlog_nodup
  backlog_lt := fun c hc => by
    rw [hnext]
    exact h.backlog_lt c (hbacklog ▸ hc)
  fds_lt := fun hc => by
    rw [hnext]
    exact h.fds_lt (hfds ▸ hc)
  fds_inj := fun hf hg => h.fds_inj (hfds ▸ hf) (hfds ▸ hg)
  fds_backlog := fun hc => by
    rw [hbacklog]
    exact h.fds_backlog (hfds ▸ hc)

lemma AcceptedAs.congr {net net' : Net} {f : ℕ} {c : ℕ} (h : net.AcceptedAs f c)
    (hfds : net'.fds = net.fds) (hbacklog : net'.backlog = net.backlog)
    (hnext : net'.nextConn = net.nextConn) : net'.AcceptedAs f c where
  lt := hnext ▸ h.lt
  notMem := hbacklog ▸ h.notMem
  eq := fun hg => h.eq (hfds ▸ hg)

lemma WF.client {net net' : Net} {a : ClientAction} (h : net.WF)
    (hstep : net.client a = some net') : net'.WF := by
  obtain ⟨hfds, ⟨hnext, hbacklog⟩ | ⟨hnext, hbacklog⟩⟩ := client_cases hstep
  · exact h.congr hfds hbacklog hnext
  · have hnew : net.nextConn ∉ net.backlog := fun hmem => by
      have := h.backlog_lt _ hmem
      omega
    refine ⟨?_, ?_, ?_, ?_, ?_⟩
    · rw [hbacklog]
      exact List.nodup_append.mpr ⟨h.backlog_nodup, List.nodup_singleton _,
        fun a ha b hb hab => hnew (by rwa [← List.mem_singleton.mp hb, ← hab])⟩
    · intro c hc
      rw [hbacklog, List.mem_append, List.mem_singleton] at hc
      rcases hc with hc | rfl
      · have := h.backlog_lt c hc
        omega
      · omega
    · intro f c hc
      have := h.fds_lt (hfds ▸ hc)
      omega
    · intro f g c hf hg
      exact h.fds_inj (hfds ▸ hf) (hfds ▸ hg)
    · intro f c hc hmem
      rw [hfds] at hc
      rw [hbacklog, List.mem_append, List.mem_singleton] at hmem
      rcases hmem with hmem | rfl
      · exact h.fds_backlog hc hmem
      · exact absurd (h.fds_lt hc) (by omega)

lemma AcceptedAs.client {net net' : Net} {a : ClientAction} {f : ℕ} {c : ℕ}
    (h : net.AcceptedAs f c) (hstep : net.client a = some net') : net'.AcceptedAs f c := by
  obtain ⟨hfds, ⟨hnext, hbacklog⟩ | ⟨hnext, hbacklog⟩⟩ := client_cases hstep
  · exact h.congr hfds hbacklog hnext
  · have hlt := h.lt
    refine ⟨by omega, ?_, fun hg => h.eq (hfds ▸ hg)⟩
    rw [hbacklog, List.mem_append, List.mem_singleton]
    rintro (hmem | rfl)
    · exact h.notMem hmem
    · omega

lemma WF.accept {svrFd n : ℕ} {net net' : Net} (h : net.WF)
    (hstep : net.accept svrFd n = some net') : net'.WF := by
  obtain ⟨c, backlog, hbacklog, -, hn, rfl⟩ := accept_cases hstep
  have hnodup := h.backlog_nodup
  rw [hbacklog, List.nodup_cons] at hnodup
  have hc : c ∈ net.backlog := by simp [hbacklog]
  -- the descriptors of the new table
  have hfds : ∀ {f x}, Function.update net.fds n (some c) f = some x →
      (f = n ∧ x = c) ∨ (f ≠ n ∧ net.fds f = some x) := by
    intro f x hx
    by_cases hf : f = n
    · subst hf
      rw [Function.update_self] at hx
      exact Or.inl ⟨rfl, (Option.some.inj hx).symm⟩
    · rw [Function.update_of_ne hf] at hx
      exact Or.inr ⟨hf, hx⟩
  refine ⟨hnodup.2, fun x hx => h.backlog_lt x (by simp [hbacklog, hx]), ?_, ?_, ?_⟩
  · intro f x hx
    rcases hfds hx with ⟨-, rfl⟩ | ⟨-, hx⟩
    · exact h.backlog_lt x hc
    · exact h.fds_lt hx
  · intro f g x hf hg
    rcases hfds hf with ⟨rfl, rfl⟩ | ⟨-, hf'⟩ <;> rcases hfds hg with ⟨rfl, hx⟩ | ⟨-, hg'⟩
    · rfl
    · exact absurd hc (h.fds_backlog hg')
    · subst hx
      exact absurd hc (h.fds_backlog hf')
    · exact h.fds_inj hf' hg'
  · intro f x hx hmem
    rcases hfds hx with ⟨-, rfl⟩ | ⟨-, hx⟩
    · exact hnodup.1 hmem
    · exact h.fds_backlog hx (by simp [hbacklog, hmem])

lemma AcceptedAs.accept {svrFd n : ℕ} {net net' : Net} {f : ℕ} {c : ℕ}
    (h : net.AcceptedAs f c) (hstep : net.accept svrFd n = some net') :
    net'.AcceptedAs f c := by
  obtain ⟨c', backlog, hbacklog, -, hn, rfl⟩ := accept_cases hstep
  have hne : c ∉ c' :: backlog := hbacklog ▸ h.notMem
  rw [List.mem_cons, not_or] at hne
  refine ⟨h.lt, hne.2, ?_⟩
  intro g hg
  show g = f
  by_cases hgn : g = n
  · subst hgn
    change Function.update net.fds g (some c') g = some c at hg
    rw [Function.update_self] at hg
    exact absurd (Option.some.inj hg).symm hne.1
  · change Function.update net.fds n (some c') g = some c at hg
    rw [Function.update_of_ne hgn] at hg
    exact h.eq hg

lemma close_fds_of_some {net : Net} {fd g : ℕ} {c : ℕ} (h : (net.close fd).fds g = some c) :
    g ≠ fd ∧ net.fds g = some c := by
  by_cases hg : g = fd
  · subst hg
    change Function.update net.fds g none g = some c at h
    rw [Function.update_self] at h
    cases h
  · change Function.update net.fds fd none g = some c at h
    rw [Function.update_of_ne hg] at h
    exact ⟨hg, h⟩

lemma WF.close {net : Net} (h : net.WF) (fd : ℕ) : (net.close fd).WF where
  backlog_nodup := h.backlog_nodup
  backlog_lt := h.backlog_lt
  fds_lt := fun hc => h.fds_lt (close_fds_of_some hc).2
  fds_inj := fun hf hg => h.fds_inj (close_fds_of_some hf).2 (close_fds_of_some hg).2
  fds_backlog := fun hc => h.fds_backlog (close_fds_of_some hc).2

lemma AcceptedAs.close {net : Net} {f : ℕ} {c : ℕ} (h : net.AcceptedAs f c) (fd : ℕ) :
    (net.close fd).AcceptedAs f c :=
  ⟨h.lt, h.notMem, fun hg => h.eq (close_fds_of_some hg).2⟩

end Net
end Io
end Sunet
