import KvServer.Mtcp.Thread

/-!
# How often a socket is closed

Closing is decided in two places.  The handler closes a socket it finds
unconnected and a socket whose request asks not to be kept alive, and it returns 0
in both cases.  The loop takes 0 to mean that the remote host closed the
connection and closes the socket as well.

So a socket is closed twice exactly when the handler closes it, also over a whole run
(`once_iff_handlerKeeps`).  `Ends` says in terms of the answers when that is, and in a run
without such a step every socket is closed at most once between two accepts of its number.
-/

namespace KvServer.Mtcp

open Transfer

/-- Between an accept of a socket and the next accept of the same number it is
closed at most once. -/
def ClosedOnce (log : List Action) : Prop :=
  ∀ c pre mid post, log = pre ++ .accept c :: (mid ++ post) → .accept c ∉ mid →
    (closes mid).count c ≤ 1

/-- The dispatch does not end a connection inside the handler. -/
def ClosedByLoop {σ : Type} (t : Thread σ) : Event → Prop
  | .dispatch reads writes => ¬ Ends t.ctx.errno reads writes
  | _ => True

/-- The handler does not close the socket of the event that is taken up. -/
def HandlerKeeps {σ : Type} [CuckoohashMap σ Key Value] (t : Thread σ) : Event → Prop
  | .dispatch reads writes => ∀ ev events do_accept,
      t.phase = .dispatching (ev :: events) do_accept →
      ¬ HandlerCloses t.listener t.ctx ev reads writes
  | _ => True

/-! ## Counting since the last accept -/

/-- Count a close of `c`, and start again at an accept of `c`. -/
def countClose (c n : Nat) : Action → Nat
  | .accept d => if d = c then 0 else n
  | .close d => if d = c then n + 1 else n
  | _ => n

/-- How often `c` was closed since it was last accepted. -/
def closesSince (c : Nat) (log : List Action) : Nat := log.foldl (countClose c) 0

theorem foldl_countClose {c : Nat} {log : List Action} (h : .accept c ∉ log) (n : Nat) :
    log.foldl (countClose c) n = n + (closes log).count c := by
  induction log generalizing n with
  | nil => rfl
  | cons a log ih =>
      have hlog : .accept c ∉ log := fun hm => h (List.mem_cons_of_mem _ hm)
      rw [List.foldl_cons, ih hlog]
      cases a with
      | close d =>
          by_cases hd : d = c
          · subst hd
            simp [countClose, closes]
            omega
          · simp [countClose, closes, hd]
      | accept d =>
          have hd : d ≠ c := by
            rintro rfl
            exact h List.mem_cons_self
          simp [countClose, closes, hd]
      | event d => rfl
      | packet d send => rfl
      | write d bytes => rfl

theorem closesSince_append {c : Nat} {log added : List Action} (h : .accept c ∉ added) :
    closesSince c (log ++ added) = closesSince c log + (closes added).count c := by
  rw [closesSince, List.foldl_append, foldl_countClose h, closesSince]

theorem closesSince_accept (c : Nat) (log : List Action) :
    closesSince c (log ++ [.accept c]) = 0 := by
  simp [closesSince, countClose]

theorem closesSince_accept_of_ne {c d : Nat} (h : d ≠ c) (log : List Action) :
    closesSince c (log ++ [.accept d]) = closesSince c log := by
  simp [closesSince, countClose, h]

/-- At no moment was a socket closed twice since it was accepted. -/
def AtMostOnce (log : List Action) : Prop := ∀ c p, p <+: log → closesSince c p ≤ 1

theorem AtMostOnce.closedOnce {log : List Action} (h : AtMostOnce log) : ClosedOnce log := by
  intro c pre mid post hlog hmid
  have hle := h c (pre ++ [.accept c] ++ mid) ⟨post, by simp [hlog]⟩
  rw [closesSince_append hmid, closesSince_accept, Nat.zero_add] at hle
  exact hle

/-- A log may grow by closing what was not closed. -/
theorem AtMostOnce.append {log added : List Action} (h : AtMostOnce log)
    (hacc : ∀ c, .accept c ∉ added)
    (hadd : ∀ c, closesSince c log + (closes added).count c ≤ 1) : AtMostOnce (log ++ added) := by
  intro c p hp
  rcases List.prefix_or_prefix_of_prefix hp (List.prefix_append log added) with hold | ⟨q, rfl⟩
  · exact h c p hold
  · have hq : q <+: added := (List.prefix_append_right_inj log).mp hp
    rw [closesSince_append fun hm => hacc c (hq.subset hm)]
    have hle : (closes q).count c ≤ (closes added).count c :=
      (hq.filterMap _).sublist.count_le c
    have hmax := hadd c
    omega

theorem AtMostOnce.accept {log : List Action} (h : AtMostOnce log) (d : Nat) :
    AtMostOnce (log ++ [.accept d]) := by
  intro c p hp
  rcases List.prefix_concat_iff.mp hp with rfl | hp
  · by_cases hd : d = c
    · subst hd
      rw [closesSince_accept]
      exact Nat.zero_le 1
    · rw [closesSince_accept_of_ne hd]
      exact h c log (List.prefix_refl log)
  · exact h c p hp

/-! ## What a dispatch adds to the log -/

/-- The actions of one dispatch. -/
def dispatchActions (sockid : Nat) (body : List Action) (n : Nat) : List Action :=
  .event sockid :: (body ++ List.replicate n (.close sockid))

section

variable {sockid n : Nat} {body : List Action}

theorem accept_not_mem_dispatch (h : ∀ a ∈ body, a.Serves sockid) (c : Nat) :
    .accept c ∉ dispatchActions sockid body n := by
  intro hm
  rcases List.mem_cons.mp hm with heq | hm
  · cases heq
  · rcases List.mem_append.mp hm with hm | hm
    · exact h _ hm
    · cases List.eq_of_mem_replicate hm

theorem closes_serves (h : ∀ a ∈ body, a.Serves sockid) : closes body = [] := by
  refine List.filterMap_eq_nil_iff.mpr fun a ha => ?_
  cases a with
  | close c => exact (h _ ha).elim
  | event c => rfl
  | accept c => rfl
  | packet c send => rfl
  | write c bytes => rfl

theorem closes_dispatch (h : ∀ a ∈ body, a.Serves sockid) :
    closes (dispatchActions sockid body n) = List.replicate n sockid := by
  have hrep : closes (List.replicate n (.close sockid)) = List.replicate n sockid := by
    induction n with
    | zero => rfl
    | succ n ih => rw [List.replicate_succ, List.replicate_succ, ← ih]; rfl
  show closes (body ++ List.replicate n (.close sockid)) = _
  rw [closes_append, closes_serves h, List.nil_append, hrep]

/-- A list without accepts unregisters what it closes. -/
theorem mem_registered {c : Nat} {epoll : Finset Nat} {log : List Action}
    (h : ∀ d, .accept d ∉ log) : c ∈ registered epoll log ↔ c ∈ epoll ∧ c ∉ closes log := by
  induction log generalizing epoll with
  | nil => simp [registered, closes]
  | cons a log ih =>
      have hlog : ∀ d, .accept d ∉ log := fun d hm => h d (List.mem_cons_of_mem _ hm)
      show c ∈ registered (a.register epoll) log ↔ _
      rw [ih hlog]
      cases a with
      | close d =>
          simp [Action.register, closes, and_assoc]
          tauto
      | accept d => exact absurd List.mem_cons_self (h d)
      | event d => rfl
      | packet d send => rfl
      | write d bytes => rfl

end

/-! ## The invariant -/

variable {σ : Type}

/-- An accept registers no other socket. -/
theorem mem_epoll_accept {ctx : ThreadContext σ} {c d : Nat}
    (h : d ∈ (acceptConnection ctx c).2.epoll) (hd : d ≠ c) : d ∈ ctx.epoll := by
  unfold acceptConnection at h
  split at h
  · exact h
  · rcases Finset.mem_insert.mp h with heq | hmem
    · exact absurd heq hd
    · exact hmem

/-- What the condition keeps: no socket was closed twice, a registered socket was
not closed since it was accepted, and the rest of the batch is still a batch. -/
structure Thread.Tidy (t : Thread σ) : Prop where
  once : AtMostOnce t.ctx.log
  open_ : ∀ c ∈ t.ctx.epoll, c ≠ t.listener → closesSince c t.ctx.log = 0
  batch : ∀ events do_accept, t.phase = .dispatching events do_accept → t.Batch events

theorem Thread.Tidy.start (listener : Nat) (store : σ) : (Thread.start listener store).Tidy where
  once := by
    intro c p hp
    rw [List.prefix_nil.mp hp]
    exact Nat.zero_le 1
  open_ := fun _ _ _ => rfl
  batch := by
    intro events do_accept h
    cases h

variable [CuckoohashMap σ Key Value]

theorem ClosedByLoop.keeps {t : Thread σ} {e : Event} (h : ClosedByLoop t e) :
    HandlerKeeps t e := by
  cases e with
  | dispatch reads writes => exact fun ev events do_accept _ hcloses => h hcloses.ends
  | _ => trivial

/-- The dispatch of an event whose socket the handler does not close. -/
theorem Thread.Tidy.dispatch {t : Thread σ} {ev : EpollEvent} {events : List EpollEvent}
    {do_accept do_accept' : Bool} {reads : List (ReadAnswer Byte)} {writes : List WriteAnswer}
    {d : Dispatched σ} {body : List Action} {n : Nat} (ht : t.Tidy)
    (hphase : t.phase = .dispatching (ev :: events) do_accept)
    (hspec : d.Spec t.listener t.ctx ev reads writes body n)
    (hkeeps : ¬ HandlerCloses t.listener t.ctx ev reads writes) :
    Thread.Tidy { t with phase := d.stops.getD (nextPhase events do_accept'), ctx := d.ctx } := by
  obtain ⟨hnodup, hreg⟩ := ht.batch _ _ hphase
  have hlog : d.ctx.log = t.ctx.log ++ dispatchActions ev.sockid body n := hspec.did.log
  have hepoll : d.ctx.epoll = registered t.ctx.epoll (dispatchActions ev.sockid body n) :=
    hspec.did.epoll
  have hacc := accept_not_mem_dispatch (n := n) hspec.serves
  have hcloses := closes_dispatch (n := n) hspec.serves
  have hmem : ∀ c, c ∈ d.ctx.epoll ↔ c ∈ t.ctx.epoll ∧ c ∉ List.replicate n ev.sockid := by
    intro c
    rw [hepoll, mem_registered hacc, hcloses]
  refine ⟨?_, ?_, ?_⟩
  · show AtMostOnce d.ctx.log
    rw [hlog]
    refine ht.once.append hacc fun c => ?_
    rw [hcloses, List.count_replicate]
    split
    · next hc =>
        -- the socket of the event was open, and is closed once at most
        have hc' : ev.sockid = c := by simpa using hc
        subst hc'
        by_cases hl : ev.sockid = t.listener
        · rw [hspec.listener hl, Nat.add_zero]
          exact ht.once _ _ (List.prefix_refl _)
        · rw [ht.open_ _ (hreg ev List.mem_cons_self) hl, Nat.zero_add]
          exact Nat.not_lt.mp fun hlt => hkeeps (hspec.twice.mp hlt)
    · exact ht.once c _ (List.prefix_refl _)
  · intro c hc hl
    obtain ⟨hold, hcl⟩ := (hmem c).mp hc
    show closesSince c d.ctx.log = 0
    rw [hlog, closesSince_append (hacc c), ht.open_ c hold hl, hcloses, Nat.zero_add]
    exact List.count_eq_zero.mpr hcl
  · intro events' da hnext
    -- the rest of the batch names other sockets
    have hevents : events' = events := by
      rcases hs : d.stops with - | held
      · rw [hs] at hnext
        exact nextPhase_dispatching hnext
      · rw [hs] at hnext
        rcases hspec.held held hs with rfl | rfl <;> cases hnext
    subst hevents
    rw [List.map_cons, List.nodup_cons] at hnodup
    refine ⟨hnodup.2, fun ev' hev' => (hmem _).mpr ⟨hreg ev' (List.mem_cons_of_mem _ hev'), ?_⟩⟩
    intro hrep
    rw [← List.eq_of_mem_replicate hrep] at hnodup
    exact hnodup.1 (List.mem_map_of_mem hev')

/-- Every step under the condition keeps the invariant. -/
theorem Thread.Tidy.step {t t' : Thread σ} {e : Event} (ht : t.Tidy) (he : HandlerKeeps t e)
    (h : t.step e = some t') : t'.Tidy := by
  cases Thread.step_cases h with
  | wait hphase hbatch =>
      refine ⟨ht.once, ht.open_, fun events' da hnext => ?_⟩
      rw [nextPhase_dispatching hnext]
      exact hbatch
  | stop hphase => exact ⟨ht.once, ht.open_, fun _ _ h => by cases h⟩
  | dispatch hphase hspec => exact ht.dispatch hphase hspec (he _ _ _ hphase)
  | @accept c phase hphase hnext =>
      have hdid := Extends.accept t.ctx c
      refine ⟨?_, ?_, ?_⟩
      · show AtMostOnce (acceptConnection t.ctx c).2.log
        rw [hdid.log]
        exact ht.once.accept c
      · intro d hd hl
        show closesSince d (acceptConnection t.ctx c).2.log = 0
        rw [hdid.log]
        by_cases hdc : c = d
        · subst hdc
          exact closesSince_accept c t.ctx.log
        · rw [closesSince_accept_of_ne hdc]
          exact ht.open_ d (mem_epoll_accept hd (Ne.symm hdc)) hl
      · intro events da h
        rcases hnext with rfl | rfl <;> cases h
  | acceptFailed hphase => exact ⟨ht.once, ht.open_, fun _ _ h => by cases h⟩
  | errno hphase => exact ⟨ht.once, ht.open_, fun events da h => ht.batch events da h⟩

/-- In a run in which the handler ends no connection every socket is closed at
most once between two accepts of its number. -/
theorem closed_once_of_closedByLoop {listener : Nat} {store : σ} {events : List Event}
    {t : Thread σ} (hrun : (serverThread σ).exec (Thread.start listener store) events = some t)
    (hmeets : (serverThread σ).Meets ClosedByLoop (Thread.start listener store) events) :
    ClosedOnce t.ctx.log :=
  (Machine.exec_invariant_of (I := Thread.Tidy) (C := ClosedByLoop)
    (fun _ _ _ ht he h => ht.step he.keeps h) hrun hmeets
    (Thread.Tidy.start listener store)).once.closedOnce

/-- One request is kept alive, and the connection is reset afterwards. -/
theorem closed_once_of_closedByLoop_reset :
    ∃ t, (serverThread (Key → Option Value)).exec (Thread.start 3 CuckoohashMap.empty)
        (session (SendMessage.blank .PUT 1) [.count KVSTORE_CONTENT_LEN] ++ reset) = some t ∧
      ClosedOnce t.ctx.log := by
  have hsome : ((serverThread (Key → Option Value)).exec (Thread.start 3 CuckoohashMap.empty)
      (session (SendMessage.blank .PUT 1) [.count KVSTORE_CONTENT_LEN] ++ reset)).isSome := by
    decide +kernel
  obtain ⟨t, hrun⟩ := Option.isSome_iff_exists.mp hsome
  refine ⟨t, hrun, closed_once_of_closedByLoop hrun (Machine.Meets.of_events fun e he u => ?_)⟩
  refine mem_session_reset (C := ClosedByLoop u) (fun e h => ?_) ?_ ?_ e he
  · cases e with
    | dispatch reads writes => exact absurd rfl (h reads writes)
    | _ => trivial
  · rintro (h | h | ⟨h, -⟩)
    · cases h
    · cases h
    · exact absurd h (by decide)
  · rintro (h | h | ⟨-, h, -⟩)
    · cases h
    · cases List.mem_singleton.mp h
    · exact absurd h (by decide)

/-- A step adds to the log. -/
theorem Thread.log_prefix {t t' : Thread σ} {e : Event} (h : t.step e = some t') :
    t.ctx.log <+: t'.ctx.log := by
  cases Thread.step_cases h with
  | dispatch hphase hspec => exact ⟨_, hspec.did.log.symm⟩
  | accept hphase hnext => exact ⟨_, (Extends.accept t.ctx _).log.symm⟩
  | _ => exact List.prefix_refl _

/-- Where the handler closes a socket the loop has closed it again. -/
theorem Thread.keeps_of_once {t t' : Thread σ} {e : Event} (h : t.step e = some t')
    (honce : AtMostOnce t'.ctx.log) : HandlerKeeps t e := by
  cases Thread.step_cases h with
  | @dispatch ev events do_accept do_accept' reads writes d body n hphase hspec =>
      intro ev' events' b hphase' hcloses
      cases hphase.symm.trans hphase'
      have htwice := hspec.twice.mpr hcloses
      have hlog : d.ctx.log = t.ctx.log ++ dispatchActions ev.sockid body n := hspec.did.log
      have hle := honce ev.sockid d.ctx.log (List.prefix_refl _)
      rw [hlog, closesSince_append (accept_not_mem_dispatch hspec.serves _),
        closes_dispatch hspec.serves, List.count_replicate_self] at hle
      omega
  | _ => trivial

/-- At no moment of a run has a socket been closed twice since it was accepted, if and only if the
handler has closed none. -/
theorem once_iff_handlerKeeps {listener : Nat} {store : σ} {events : List Event} {t : Thread σ}
    (hrun : (serverThread σ).exec (Thread.start listener store) events = some t) :
    AtMostOnce t.ctx.log ↔
      (serverThread σ).Meets HandlerKeeps (Thread.start listener store) events := by
  have hstart := Thread.Tidy.start listener store
  have hiff := Machine.exec_iff_meets (M := serverThread σ) (C := HandlerKeeps)
    (I := fun t => AtMostOnce t.ctx.log → t.Tidy) (G := fun t => AtMostOnce t.ctx.log)
    (fun s e u hs hstep => ?_) hrun fun _ => hstart
  · rw [hiff]
    exact and_iff_right hstart.once
  · have hback : AtMostOnce u.ctx.log → AtMostOnce s.ctx.log ∧ HandlerKeeps s e := fun honce =>
      ⟨fun c p hp => honce c p (hp.trans (Thread.log_prefix hstep)),
        Thread.keeps_of_once hstep honce⟩
    have hforth : AtMostOnce s.ctx.log ∧ HandlerKeeps s e → u.Tidy := fun h =>
      (hs h.1).step h.2 hstep
    exact ⟨fun honce => hforth (hback honce), hback, fun h => (hforth h).once⟩

/-- The one request is not to be kept alive: its socket is closed by the handler
and again by the loop. -/
theorem closed_twice : ¬ ∀ events (t : Thread (Key → Option Value)),
    (serverThread _).exec (Thread.start 3 CuckoohashMap.empty) events = some t →
      ClosedOnce t.ctx.log := by
  intro h
  have hlog : ((serverThread (Key → Option Value)).exec (Thread.start 3 CuckoohashMap.empty)
      (session (SendMessage.blank .PUT 0) [.count KVSTORE_CONTENT_LEN])).map
        (fun t => t.ctx.log) =
      some ([.event 3] ++ .accept 7 :: ([.event 7, .packet 7 (SendMessage.blank .PUT 0),
        .write 7 (SendMessage.blank .GET 0).bytes, .close 7, .close 7] ++ [])) := by
    decide +kernel
  obtain ⟨t, hrun, ht⟩ := Option.map_eq_some_iff.mp hlog
  have hcount := h _ t hrun 7 _ _ _ ht (by decide)
  exact absurd hcount (by decide)

end KvServer.Mtcp
