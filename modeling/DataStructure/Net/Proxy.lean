import Mathlib

/-! The event loop of `socket/proxy`: `proxy.c`, `client.c` and the lists of `util.c`.

A client is known by its slot in `client_list`, where `NULL` is `none`. The buffers of a client are
left out: the loop does not look at them. What the system calls return is given. -/

namespace DataStructure.Proxy

inductive FdOwner where
  | listen
  | client
  | server
  deriving DecidableEq, Repr

inductive ClientState where
  | command
  | listen
  | connecting1
  | connecting2
  | connected
  | dead
  deriving DecidableEq, Repr

abbrev Events := BitVec 16

def POLLIN : Events := 0x001

def POLLOUT : Events := 0x004

structure MuxClient where
  fd : Int
  obSize : Nat
  events : Events
  devents : Events
  state : ClientState
  serverFd : Int
  deriving DecidableEq, Repr

abbrev Slots := List (Option MuxClient)

structure PollFd where
  owner : FdOwner
  fd : Int
  events : Events
  deriving DecidableEq, Repr

-- util.c

def fdlistAdd (list : List PollFd) (owner : FdOwner) (fd : Int) (events : Events) : List PollFd :=
  list ++ [⟨owner, fd, events⟩]

def CAPACITY_STEP : Nat := 8

def collectionAdd (element : MuxClient) : Slots → Slots
  | [] => some element :: List.replicate (CAPACITY_STEP - 1) none
  | none :: slots => some element :: slots
  | some other :: slots => some other :: collectionAdd element slots

-- client.c

/-- `reduceOption` is the `FOREACH` over the slots that are not `NULL`. -/
def clientGetFds (slots : Slots) (list : List PollFd) : List PollFd :=
  slots.reduceOption.foldl (fun list client => fdlistAdd list .client client.fd client.events) list

def serverGetFds (slots : Slots) (list : List PollFd) : List PollFd :=
  slots.reduceOption.foldl (fun list client =>
    if client.serverFd ≠ 0 then fdlistAdd list .server client.serverFd client.events else list) list

/-- The results of `accept`, `opensock` and `send`, if they are called; `none` is a failed
assertion in `opensock`. -/
structure Answers where
  accept : Int
  opensock : Option Int
  send : Int

/-- `none` when `accept` fails, after which `main_loop` returns. -/
def clientAccept (answers : Answers) (slots : Slots) : Option Slots :=
  if answers.accept < 0 then none
  else some (collectionAdd ⟨answers.accept, 0, POLLIN, 0, .connected, 0⟩ slots)

def processRecv (answers : Answers) (client : MuxClient) : Option MuxClient :=
  answers.opensock.map fun serverFd => { client with serverFd }

/-- The result `none` is a client that was closed. -/
def processSend (answers : Answers) (client : MuxClient) : Option MuxClient :=
  if client.obSize = 0 then
    some { client with events := client.events &&& ~~~POLLOUT }
  else if answers.send ≤ 0 then none
  else if answers.send = client.obSize then
    let client := { client with obSize := 0, events := client.events &&& ~~~POLLOUT }
    if client.state = .connecting2 then
      some { client with state := .connected, events := client.devents }
    else some client
  else some { client with obSize := client.obSize - answers.send.toNat }

inductive Handler where
  | processRecv
  | processSend
  | recvServer
  deriving DecidableEq, Repr

/-- What a handler leaves in the slot of its client; `none` when the program ends. -/
def Handler.run (answers : Answers) (client : MuxClient) : Handler → Option (Option MuxClient)
  | .processRecv => (Proxy.processRecv answers client).map some
  | .processSend => some (Proxy.processSend answers client)
  | .recvServer => some (some client)

def findClient (fd : Int) : Slots → Nat → Option (Nat × MuxClient)
  | [], _ => none
  | none :: slots, i => findClient fd slots (i + 1)
  | some lc :: slots, i => if lc.fd = fd then some (i, lc) else findClient fd slots (i + 1)

def chooseHandler (events : Events) : FdOwner → Option Handler
  | .client =>
      if events &&& POLLIN ≠ 0 then some .processRecv
      else if events &&& POLLOUT ≠ 0 then some .processSend
      else none
  | .server => if events &&& POLLIN ≠ 0 then some .recvServer else none
  | .listen => none

def clientCall (fd : Int) (events : Events) (owner : FdOwner) (slots : Slots) :
    Option (Handler × Nat × MuxClient) := do
  let (i, client) ← findClient fd slots 0
  let handler ← chooseHandler events owner
  some (handler, i, client)

def clientProcess (fd : Int) (events : Events) (owner : FdOwner) (answers : Answers)
    (slots : Slots) : Option Slots :=
  match clientCall fd events owner slots with
  | none => some slots
  | some (handler, i, client) => (handler.run answers client).map fun slot => slots.set i slot

-- proxy.c

def pollfds (listenfd : Int) (slots : Slots) : List PollFd :=
  clientGetFds slots (serverGetFds slots (fdlistAdd [] .listen listenfd POLLIN))

structure Event where
  entry : PollFd
  revents : Events
  answers : Answers

def dispatch (slots : Slots) (event : Event) : Option Slots :=
  if event.revents = 0 then some slots
  else match event.entry.owner with
    | .listen => clientAccept event.answers slots
    | owner => clientProcess event.entry.fd event.revents owner event.answers slots

def mainLoopPass (slots : Slots) (events : List Event) : Option Slots := events.foldlM dispatch slots

def Registers (slots : Slots) (i : Nat) (entry : PollFd) : Prop :=
  ∃ client, slots[i]? = some (some client) ∧
    ((entry.owner = .client ∧ entry.fd = client.fd) ∨
      (entry.owner = .server ∧ entry.fd = client.serverFd ∧ client.serverFd ≠ 0))

def inputHandler : FdOwner → Option Handler
  | .client => some .processRecv
  | .server => some .recvServer
  | .listen => none

/-- `client_process` calls the handler for input, on the client in slot `i`. -/
def ActsOn (slots : Slots) (event : Event) (i : Nat) : Prop :=
  ∃ handler client, inputHandler event.entry.owner = some handler ∧
    clientCall event.entry.fd event.revents event.entry.owner slots = some (handler, i, client)

def descriptorsOf : Option MuxClient → List Int
  | none => []
  | some client => if client.serverFd = 0 then [client.fd] else [client.fd, client.serverFd]

def descriptors (slots : Slots) : List Int := slots.flatMap descriptorsOf

theorem clientGetFds_eq (slots : Slots) (list : List PollFd) :
    clientGetFds slots list =
      list ++ slots.reduceOption.map fun client => ⟨.client, client.fd, client.events⟩ := by
  rw [clientGetFds]
  induction slots.reduceOption generalizing list with
  | nil => simp
  | cons client clients ih =>
      rw [List.foldl_cons, ih, fdlistAdd, List.map_cons, List.append_assoc]
      rfl

theorem serverGetFds_owner (slots : Slots) (list : List PollFd) :
    ∀ entry ∈ serverGetFds slots list, entry ∈ list ∨ entry.owner = .server := by
  rw [serverGetFds]
  induction slots.reduceOption generalizing list with
  | nil => exact fun entry inside => .inl inside
  | cons client clients ih =>
      intro entry inside
      rw [List.foldl_cons] at inside
      rcases ih _ entry inside with before | server
      · split at before
        · rcases List.mem_append.1 before with old | new
          · exact .inl old
          · rw [List.mem_singleton.1 new]
            exact .inr rfl
        · exact .inl before
      · exact .inr server

theorem descriptorsOf_fd (client : MuxClient) : client.fd ∈ descriptorsOf (some client) := by
  rw [descriptorsOf]
  split <;> simp

theorem descriptorsOf_serverFd (client : MuxClient) (connected : client.serverFd ≠ 0) :
    client.serverFd ∈ descriptorsOf (some client) := by
  simp [descriptorsOf, connected]

theorem descriptors_apart (slots : Slots) (distinct : (descriptors slots).Nodup) :
    slots.Pairwise fun x y => (descriptorsOf x).Disjoint (descriptorsOf y) :=
  (List.nodup_flatMap.1 distinct).2

theorem pollfds_apart (listenfd : Int) (slots : Slots) (distinct : (descriptors slots).Nodup) :
    (pollfds listenfd slots).Pairwise fun a b =>
      a.owner = .client → b.owner = .client → a.fd ≠ b.fd := by
  have front : ∀ entry ∈ serverGetFds slots (fdlistAdd [] .listen listenfd POLLIN),
      entry.owner ≠ .client := by
    intro entry inside
    rcases serverGetFds_owner slots _ entry inside with listen | server
    · rw [List.mem_singleton.1 listen]
      exact FdOwner.noConfusion
    · rw [server]
      decide
  have clients : slots.reduceOption.Pairwise fun a b => a.fd ≠ b.fd := by
    rw [List.reduceOption, List.pairwise_filterMap]
    apply (descriptors_apart slots distinct).imp
    intro x y apart a first b second same
    obtain rfl : x = some a := first
    obtain rfl : y = some b := second
    exact apart (descriptorsOf_fd a) (same ▸ descriptorsOf_fd b)
  rw [pollfds, clientGetFds_eq, List.pairwise_append]
  refine ⟨?_, ?_, ?_⟩
  · apply List.pairwise_of_forall_mem_list
    intro a inside _ _ owner
    exact absurd owner (front a inside)
  · rw [List.pairwise_map]
    exact clients.imp fun apart _ _ => apart
  · intro a inside _ _ owner
    exact absurd owner (front a inside)

theorem findClient_some (fd : Int) (slots : Slots) (k i : Nat) (client : MuxClient)
    (found : findClient fd slots k = some (i, client)) :
    k ≤ i ∧ slots[i - k]? = some (some client) ∧ client.fd = fd := by
  induction slots generalizing k with
  | nil => cases found
  | cons slot slots ih =>
      have later (found : findClient fd slots (k + 1) = some (i, client)) :
          k ≤ i ∧ (slot :: slots)[i - k]? = some (some client) ∧ client.fd = fd := by
        obtain ⟨order, here, same⟩ := ih (k + 1) found
        have shift : i - k = i - (k + 1) + 1 := by omega
        rw [shift, List.getElem?_cons_succ]
        exact ⟨by omega, here, same⟩
      cases slot with
      | none => exact later found
      | some lc =>
          rw [findClient] at found
          split at found
          · next same =>
              obtain ⟨rfl, rfl⟩ := Prod.mk.inj (Option.some.inj found)
              exact ⟨le_rfl, by simp, same⟩
          · exact later found

theorem findClient_none (fd : Int) (slots : Slots) (k : Nat) :
    findClient fd slots k = none ↔
      ∀ (i : Nat) (client : MuxClient), slots[i]? = some (some client) → client.fd ≠ fd := by
  induction slots generalizing k with
  | nil => simp [findClient]
  | cons slot slots ih =>
      cases slot with
      | none =>
          rw [findClient, ih (k + 1)]
          constructor
          · intro absent i client here
            cases i with
            | zero => cases here
            | succ i => exact absent i client here
          · intro absent i client here
            exact absent (i + 1) client here
      | some lc =>
          rw [findClient]
          constructor
          · intro missed i client here
            split at missed
            · cases missed
            · next other =>
                cases i with
                | zero =>
                    obtain rfl : lc = client := Option.some.inj (Option.some.inj here)
                    exact other
                | succ i => exact (ih (k + 1)).1 missed i client here
          · intro absent
            rw [if_neg (absent 0 lc rfl), ih (k + 1)]
            intro i client here
            exact absent (i + 1) client here

theorem findClient_unique (fd : Int) (slots : Slots) (i : Nat) (client : MuxClient)
    (here : slots[i]? = some (some client)) (same : client.fd = fd)
    (unique : ∀ j other, slots[j]? = some (some other) → other.fd = fd → j = i) :
    findClient fd slots 0 = some (i, client) := by
  cases found : findClient fd slots 0 with
  | none => exact absurd same ((findClient_none fd slots 0).1 found i client here)
  | some result =>
      obtain ⟨j, other⟩ := result
      obtain ⟨_, there, equal⟩ := findClient_some fd slots 0 j other found
      rw [Nat.sub_zero] at there
      obtain rfl := unique j other there equal
      rw [there] at here
      rw [Option.some.inj (Option.some.inj here)]

theorem clientCall_eq_some {fd : Int} {events : Events} {owner : FdOwner} {slots : Slots}
    {handler : Handler} {i : Nat} {client : MuxClient} :
    clientCall fd events owner slots = some (handler, i, client) ↔
      findClient fd slots 0 = some (i, client) ∧ chooseHandler events owner = some handler := by
  rw [clientCall]
  cases findClient fd slots 0 with
  | none => simp
  | some found =>
      obtain ⟨j, other⟩ := found
      cases chooseHandler events owner with
      | none => simp
      | some chosen =>
          simp only [Option.bind_eq_bind, Option.bind_some, Option.some.injEq, Prod.mk.injEq]
          tauto

/-- Only for its own entry a client can be changed. -/
theorem run_of_not_client {events : Events} {owner : FdOwner} {handler : Handler}
    (chosen : chooseHandler events owner = some handler) (other : owner ≠ .client) (answers : Answers)
    (client : MuxClient) : handler.run answers client = some (some client) := by
  cases owner with
  | client => exact absurd rfl other
  | listen => cases chosen
  | server =>
      rw [chooseHandler] at chosen
      split at chosen
      · rw [← Option.some.inj chosen]
        rfl
      · cases chosen

theorem collectionAdd_keeps (element client : MuxClient) (slots : Slots) (i : Nat)
    (here : slots[i]? = some (some client)) :
    (collectionAdd element slots)[i]? = some (some client) := by
  induction slots generalizing i with
  | nil => cases here
  | cons slot slots ih =>
      cases slot with
      | none =>
          cases i with
          | zero => cases here
          | succ i => exact here
      | some other =>
          cases i with
          | zero => exact here
          | succ i => exact ih i here

theorem collectionAdd_origin (element client : MuxClient) (slots : Slots) (i : Nat)
    (here : (collectionAdd element slots)[i]? = some (some client)) :
    slots[i]? = some (some client) ∨ client = element := by
  induction slots generalizing i with
  | nil =>
      cases i with
      | zero => exact .inr (Option.some.inj (Option.some.inj here)).symm
      | succ i =>
          have free : some client ∈ List.replicate (CAPACITY_STEP - 1) none := List.mem_of_getElem? here
          cases List.eq_of_mem_replicate free
  | cons slot slots ih =>
      cases slot with
      | none =>
          cases i with
          | zero => exact .inr (Option.some.inj (Option.some.inj here)).symm
          | succ i => exact .inl here
      | some other =>
          cases i with
          | zero => exact .inl here
          | succ i => exact ih i here

theorem processSend_fd (answers : Answers) (client next : MuxClient)
    (sent : processSend answers client = some next) : next.fd = client.fd := by
  unfold processSend at sent
  dsimp only at sent
  split_ifs at sent with empty failed whole connecting
  · rw [← Option.some.inj sent]
  · rw [← Option.some.inj sent]
  · rw [← Option.some.inj sent]
  · rw [← Option.some.inj sent]

theorem Handler.run_fd (handler : Handler) (answers : Answers) (client next : MuxClient)
    (ran : handler.run answers client = some (some next)) : next.fd = client.fd := by
  cases handler with
  | processRecv =>
      obtain ⟨made, received, same⟩ := Option.map_eq_some_iff.1 ran
      obtain ⟨serverFd, _, rfl⟩ := Option.map_eq_some_iff.1 received
      rw [← Option.some.inj same]
  | processSend => exact processSend_fd answers client next (Option.some.inj ran)
  | recvServer => rw [Option.some.inj (Option.some.inj ran)]

def Event.Accepts (event : Event) : Prop := event.entry.owner = .listen ∧ event.revents ≠ 0

instance (event : Event) : Decidable event.Accepts := inferInstanceAs (Decidable (_ ∧ _))

/-- How the slots have changed since the list was built: a client whose own entry has not had its
turn is as it was, and every client was there, with its `fd`, or has been accepted. -/
structure Follows (slots : Slots) (before : List Event) (now : Slots) : Prop where
  kept : ∀ (i : Nat) (client : MuxClient), slots[i]? = some (some client) →
    (∀ event ∈ before, event.entry.owner = .client → event.entry.fd ≠ client.fd) →
    now[i]? = some (some client)
  origin : ∀ (i : Nat) (client : MuxClient), now[i]? = some (some client) →
    (∃ old : MuxClient, slots[i]? = some (some old) ∧ old.fd = client.fd) ∨
      ∃ event ∈ before, event.Accepts ∧ event.answers.accept = client.fd

theorem Follows.later {slots now : Slots} {before : List Event} (follows : Follows slots before now)
    (event : Event) : Follows slots (before ++ [event]) now := by
  constructor
  · intro i client here waits
    exact follows.kept i client here fun e inside => waits e (List.mem_append_left _ inside)
  · intro i client here
    rcases follows.origin i client here with old | ⟨e, inside, accepted⟩
    · exact .inl old
    · exact .inr ⟨e, List.mem_append_left _ inside, accepted⟩

theorem Follows.accept {slots now next : Slots} {before : List Event}
    (follows : Follows slots before now) (event : Event) (accepts : event.Accepts)
    (ran : clientAccept event.answers now = some next) : Follows slots (before ++ [event]) next := by
  unfold clientAccept at ran
  split at ran
  · cases ran
  · obtain rfl := Option.some.inj ran
    constructor
    · intro i client here waits
      exact collectionAdd_keeps _ client now i ((follows.later event).kept i client here waits)
    · intro i client here
      rcases collectionAdd_origin _ client now i here with old | rfl
      · exact (follows.later event).origin i client old
      · exact .inr ⟨event, by simp, accepts, rfl⟩

theorem Follows.process {slots now next : Slots} {before : List Event}
    (follows : Follows slots before now) (event : Event)
    (ran : clientProcess event.entry.fd event.revents event.entry.owner event.answers now = some next) :
    Follows slots (before ++ [event]) next := by
  unfold clientProcess at ran
  cases called : clientCall event.entry.fd event.revents event.entry.owner now with
  | none =>
      rw [called] at ran
      obtain rfl := Option.some.inj ran
      exact follows.later event
  | some call =>
      obtain ⟨handler, k, target⟩ := call
      rw [called] at ran
      obtain ⟨slot, handled, rfl⟩ := Option.map_eq_some_iff.1 ran
      obtain ⟨found, chosen⟩ := clientCall_eq_some.1 called
      obtain ⟨_, there, targetFd⟩ := findClient_some _ now 0 _ _ found
      rw [Nat.sub_zero] at there
      constructor
      · intro i client here waits
        have unchanged := (follows.later event).kept i client here waits
        by_cases other : k = i
        · subst other
          obtain rfl : target = client := Option.some.inj (Option.some.inj (there.symm.trans unchanged))
          have foreign : event.entry.owner ≠ .client := by
            intro own
            exact waits event (by simp) own targetFd.symm
          rw [run_of_not_client chosen foreign] at handled
          rw [← Option.some.inj handled, List.getElem?_set_self (List.getElem?_eq_some_iff.1 there).1]
        · rwa [List.getElem?_set_ne other]
      · intro i client here
        by_cases other : k = i
        · subst other
          have inside := (List.getElem?_eq_some_iff.1 there).1
          rw [List.getElem?_set_self inside] at here
          obtain rfl := Option.some.inj here
          rw [handler.run_fd event.answers target client handled]
          exact (follows.later event).origin k target there
        · rw [List.getElem?_set_ne other] at here
          exact (follows.later event).origin i client here

theorem Follows.dispatch {slots now next : Slots} {before : List Event}
    (follows : Follows slots before now) (event : Event) (ran : Proxy.dispatch now event = some next) :
    Follows slots (before ++ [event]) next := by
  unfold Proxy.dispatch at ran
  split at ran
  · obtain rfl := Option.some.inj ran
    exact follows.later event
  · next quiet =>
      split at ran
      · next owner => exact follows.accept event ⟨owner, quiet⟩ ran
      · exact follows.process event ran

theorem follows_pass (slots now : Slots) (before : List Event)
    (ran : mainLoopPass slots before = some now) : Follows slots before now := by
  induction before using List.reverseRecOn generalizing now with
  | nil =>
      obtain rfl := Option.some.inj ran
      exact ⟨fun i client here _ => here, fun i client here => .inl ⟨client, here, rfl⟩⟩
  | append_singleton before event ih =>
      rw [mainLoopPass, List.foldlM_append] at ran
      obtain ⟨middle, first, last⟩ := Option.bind_eq_some_iff.1 ran
      obtain ⟨_, turn, done⟩ := Option.bind_eq_some_iff.1 last
      obtain rfl := Option.some.inj done
      exact (ih middle first).dispatch event turn

theorem slot_unique (slots : Slots) (distinct : (descriptors slots).Nodup) (i j : Nat) (fd : Int)
    (x y : Option MuxClient) (here : slots[i]? = some x) (there : slots[j]? = some y)
    (first : fd ∈ descriptorsOf x) (second : fd ∈ descriptorsOf y) : i = j := by
  obtain ⟨insideI, rfl⟩ := List.getElem?_eq_some_iff.1 here
  obtain ⟨insideJ, rfl⟩ := List.getElem?_eq_some_iff.1 there
  have apart := List.pairwise_iff_getElem.1 (descriptors_apart slots distinct)
  rcases lt_trichotomy i j with less | same | more
  · exact absurd second (apart i j insideI insideJ less first)
  · exact same
  · exact absurd first (apart j i insideJ insideI more second)

theorem mem_descriptors (slots : Slots) (i : Nat) (fd : Int) (x : Option MuxClient)
    (here : slots[i]? = some x) (inside : fd ∈ descriptorsOf x) : fd ∈ descriptors slots :=
  List.mem_flatMap.2 ⟨x, List.mem_of_getElem? here, inside⟩

section Pass

variable {slots now : Slots} {before : List Event} (distinct : (descriptors slots).Nodup)
  (fresh : ∀ event ∈ before, event.Accepts → event.answers.accept ∉ descriptors slots)
  (follows : Follows slots before now)
include distinct fresh follows

theorem slot_of_fd (i j : Nat) (owner client : MuxClient) (here : slots[i]? = some (some owner))
    (held : client.fd ∈ descriptorsOf (some owner)) (there : now[j]? = some (some client)) :
    j = i ∧ owner.fd = client.fd := by
  rcases follows.origin j client there with ⟨old, before, same⟩ | ⟨event, inside, accepts, same⟩
  · have holds : client.fd ∈ descriptorsOf (some old) := same ▸ descriptorsOf_fd old
    obtain rfl := slot_unique slots distinct j i client.fd _ _ before here holds held
    rw [before] at here
    rw [← Option.some.inj (Option.some.inj here)]
    exact ⟨rfl, same⟩
  · have taken := mem_descriptors slots i client.fd _ here held
    rw [← same] at taken
    exact absurd taken (fresh event inside accepts)

theorem client_entry_found (i : Nat) (client : MuxClient) (here : slots[i]? = some (some client))
    (waits : ∀ event ∈ before, event.entry.owner = .client → event.entry.fd ≠ client.fd) :
    findClient client.fd now 0 = some (i, client) := by
  apply findClient_unique client.fd now i client (follows.kept i client here waits) rfl
  intro j other there same
  exact (slot_of_fd distinct fresh follows i j client other here (same ▸ descriptorsOf_fd client) there).1

/-- No client has the descriptor of a server as its `fd`. -/
theorem server_entry_missed (i : Nat) (client : MuxClient) (here : slots[i]? = some (some client))
    (connected : client.serverFd ≠ 0) : findClient client.serverFd now 0 = none := by
  rw [findClient_none]
  intro j other there same
  have held : other.fd ∈ descriptorsOf (some client) := same ▸ descriptorsOf_serverFd client connected
  have own := (slot_of_fd distinct fresh follows i j client other here held there).2
  have apart := (List.nodup_flatMap.1 distinct).1 (some client) (List.mem_of_getElem? here)
  rw [descriptorsOf, if_neg connected] at apart
  simp only [List.nodup_cons, List.mem_singleton] at apart
  exact apart.1 (own.trans same)

end Pass

/-- When the loop comes to an entry that reports input, the handler for it is called on the client
that registered the entry exactly if the entry is for the client's own socket. -/
theorem acts_on_registrant_iff (listenfd : Int) (slots now : Slots) (before after : List Event)
    (event : Event) (i : Nat) (distinct : (descriptors slots).Nodup)
    (polled : (before ++ event :: after).map Event.entry = pollfds listenfd slots)
    (fresh : ∀ e ∈ before, e.Accepts → e.answers.accept ∉ descriptors slots)
    (reached : mainLoopPass slots before = some now) (ready : event.revents &&& POLLIN ≠ 0)
    (registers : Registers slots i event.entry) :
    ActsOn now event i ↔ event.entry.owner = .client := by
  have follows := follows_pass slots now before reached
  obtain ⟨client, here, ⟨owner, same⟩ | ⟨owner, same, connected⟩⟩ := registers
  · have apart := pollfds_apart listenfd slots distinct
    rw [← polled, List.map_append, List.pairwise_append] at apart
    have waits : ∀ e ∈ before, e.entry.owner = .client → e.entry.fd ≠ client.fd := by
      intro e inside own
      rw [← same]
      exact apart.2.2 e.entry (List.mem_map_of_mem inside) event.entry (by simp) own owner
    have found := client_entry_found distinct fresh follows i client here waits
    refine iff_of_true ⟨.processRecv, client, by rw [owner]; rfl, ?_⟩ owner
    rw [clientCall_eq_some, same, owner]
    exact ⟨found, if_pos ready⟩
  · have missed := server_entry_missed distinct fresh follows i client here connected
    refine iff_of_false ?_ (by rw [owner]; decide)
    intro ⟨handler, other, _, called⟩
    rw [clientCall_eq_some, same, missed] at called
    cases called.1

theorem acts_on_registrant_iff_single :
    ActsOn [some ⟨5, 0, POLLIN, 0, .connected, 6⟩] ⟨⟨.client, 5, POLLIN⟩, POLLIN, ⟨7, none, 0⟩⟩ 0 ↔
      FdOwner.client = .client :=
  acts_on_registrant_iff 3 [some ⟨5, 0, POLLIN, 0, .connected, 6⟩] _
    [⟨⟨.listen, 3, POLLIN⟩, 0, ⟨7, none, 0⟩⟩, ⟨⟨.server, 6, POLLIN⟩, 0, ⟨7, none, 0⟩⟩] []
    ⟨⟨.client, 5, POLLIN⟩, POLLIN, ⟨7, none, 0⟩⟩ 0 (by decide) (by decide) (by decide) (by decide)
    (by decide) ⟨_, rfl, .inl ⟨rfl, rfl⟩⟩

/-- The answer of the server on descriptor 6 is ready, but `client_process` looks for a client
with this `fd` and calls nothing. -/
theorem server_answer_dropped :
    Registers [some ⟨5, 0, POLLIN, 0, .connected, 6⟩] 0 ⟨.server, 6, POLLIN⟩ ∧
      ⟨.server, 6, POLLIN⟩ ∈ pollfds 3 [some ⟨5, 0, POLLIN, 0, .connected, 6⟩] ∧
      ¬ActsOn [some ⟨5, 0, POLLIN, 0, .connected, 6⟩] ⟨⟨.server, 6, POLLIN⟩, POLLIN, ⟨7, none, 0⟩⟩ 0 := by
  refine ⟨⟨_, rfl, .inr ⟨rfl, rfl, by decide⟩⟩, by decide, ?_⟩
  intro ⟨handler, client, _, called⟩
  cases called

end DataStructure.Proxy
