import Atp.MarketDataSubscriber

/-!
Admin messages to an agent.  They are published under the agent's id, which the agent
subscribes to, while the event loop looks for a prefix, skips empty frames and does not
know where a message begins.
-/

namespace Atp.AdminMessages

open MarketDataSubscriber

/-- An agent: its id, which is the topic of its admin messages, and the handlers of the
verbs, which change a state `σ`, and either return whether to go on or throw. -/
structure Agent (σ : Type) where
  id : Text
  adminHandlers : Text → Option (Text → Text → σ → Option Bool × σ)

namespace Agent

variable {σ : Type} (agent : Agent σ)

/-- `isAdminMessage`, which the event loop does not call. -/
def isAdminMessage (topic _verb _data : Text) : Bool := decide (topic = agent.id)

def handleAdminMessage (verb data : Text) (s : σ) : Option Bool × σ :=
  match agent.adminHandlers verb with
  | some handler => handler verb data s
  | none => (some true, s)

end Agent

/-- What the event loop makes of a message. -/
inductive Route where
  | marketDepth (topic payload : Text)
  | handler (verb data : Text)
  | unhandled (verb data : Text)
  | marketData (topic payload : Text)
deriving DecidableEq

def Route.isData : Route → Bool
  | .marketDepth _ _ => true
  | .handler _ _ => false
  | .unhandled _ _ => false
  | .marketData _ _ => true

/-- No receive call throws. -/
def quiet (continueProcess : Bool) : Action := ⟨false, false, false, continueProcess⟩

/-- The parts that a turn reads. -/
def parts (t : Turn) : List Part := t.frame1.toList ++ t.payload

variable {σ : Type} (agent : Agent σ)

/-- The branch of a turn, and the handler that `handleAdminMessage` finds. -/
def route (t : Turn) : Route :=
  if isDepth (bytesOf t.frame1) then .marketDepth (bytesOf t.frame1) (bytesOf t.frame2)
  else if isAdmin (bytesOf t.frame1) then
    if (agent.adminHandlers (bytesOf t.frame2)).isSome then
      .handler (bytesOf t.frame2) (bytesOf t.frame3)
    else .unhandled (bytesOf t.frame2) (bytesOf t.frame3)
  else .marketData (bytesOf t.frame1) (bytesOf t.frame2)

/-- The frames of an admin message; the data may be left out. -/
def adminMessage (verb : Text) (data : Option Text) : List Text :=
  agent.id :: verb :: data.toList

/-- The first part of an admin message, which is the `n`-th message. -/
def topicPart (n : Nat) : Part := ⟨agent.id, true, n, 0⟩

/-- The turns hand the `n`-th message to the handler of its verb with its data, and no
part of it to `process`. -/
structure Served (n : Nat) (verb : Text) (data : Option Text) (turns : List Turn) : Prop where
  routed : ∃ t ∈ turns, t.frame1 = some (topicPart agent n) ∧
    route agent t = .handler verb (data.getD [])
  not_data : ∀ t ∈ turns, (route agent t).isData = true → ∀ p ∈ parts t, p.message ≠ n

section

variable (messages : List (List Text))

/-- The `n`-th message is an admin message whose verb is registered. -/
structure Addressed (n : Nat) (verb : Text) (data : Option Text) : Prop where
  message : messages[n]? = some (adminMessage agent verb data)
  registered : (agent.adminHandlers verb).isSome = true

/-- Every admin message with a registered verb is served, once its topic is not to be
read any more. -/
def Handled (s : State) : Prop :=
  ∀ n verb data, Addressed agent messages n verb data →
    topicPart agent n ∈ s.unread ∨ Served agent n verb data s.turns

/-- How many of the parts that a receive call can return a turn reads. -/
def frames (a : Action) (queue : List Part) : Nat :=
  let frame1 := if a.firstThrows then none else queue.head?
  let more := moreAfter true frame1
  let queue := queue.drop frame1.toList.length
  let frame2 := if more && !a.secondThrows then queue.head? else none
  let third := isAdmin (bytesOf frame1) && (moreAfter more frame2 && !a.thirdThrows)
  frame1.toList.length + frame2.toList.length + third.toNat

/-- A turn begins with the topic of an admin message, whose id has the prefix, and of the
two calls after it those throw that would come to an empty frame or to none. -/
structure TakesWhole (verb : Text) (data : Option Text) (a : Action) (before : List Part) :
    Prop where
  before_eq : visible before = []
  first : a.firstThrows = false
  id : isAdmin agent.id = true
  second : a.secondThrows = true ↔ verb = []
  third : ∀ d ∈ data, a.thirdThrows = true ↔ d = []
  third_of_none : data = none → verb = [] → a.thirdThrows = true

/-- If a turn gets to the topic of an admin message with a registered verb, or past it, it
takes this message as a whole. -/
def InOrder (s : State) (a : Action) : Prop :=
  ∀ n verb data before later, Addressed agent messages n verb data →
    s.unread = before ++ topicPart agent n :: later →
    (visible before).length < frames a (visible s.unread) →
    TakesWhole agent verb data a before

end

theorem isDepth_of_isAdmin {topic : Text} (hadmin : isAdmin topic = true) :
    isDepth topic = false := by
  cases hdepth : isDepth topic with
  | false => rfl
  | true => exact absurd (hadmin.symm.trans (isAdmin_of_isDepth hdepth)) Bool.noConfusion

theorem route_eq_handler_iff {t : Turn} {verb data : Text} :
    route agent t = .handler verb data ↔
      isAdmin (bytesOf t.frame1) = true ∧ (agent.adminHandlers verb).isSome ∧
        bytesOf t.frame2 = verb ∧ bytesOf t.frame3 = data := by
  unfold route
  constructor
  · intro hroute
    split_ifs at hroute with hdepth hadmin hhandler
    obtain ⟨rfl, rfl⟩ := Route.handler.inj hroute
    exact ⟨hadmin, hhandler, rfl, rfl⟩
  · rintro ⟨hadmin, hhandler, rfl, rfl⟩
    rw [isDepth_of_isAdmin hadmin, if_neg Bool.false_ne_true, if_pos hadmin, if_pos hhandler]

/-- What is routed to a handler is done by that handler. -/
theorem handleAdminMessage_of_route {t : Turn} {verb data : Text}
    (hroute : route agent t = .handler verb data) :
    ∃ handler, agent.adminHandlers verb = some handler ∧
      ∀ s, agent.handleAdminMessage (bytesOf t.frame2) (bytesOf t.frame3) s =
        handler verb data s := by
  obtain ⟨-, hhandler, rfl, rfl⟩ := (route_eq_handler_iff agent).mp hroute
  obtain ⟨handler, hhandler⟩ := Option.isSome_iff_exists.mp hhandler
  refine ⟨handler, hhandler, fun s => ?_⟩
  rw [Agent.handleAdminMessage, hhandler]

/-! ### What a turn takes from the socket -/

theorem bytes_ne_nil_of_visible {unread : List Part} {p : Part} (hp : p ∈ visible unread) :
    p.bytes ≠ [] := by
  have hbytes := (List.mem_filter.mp hp).2
  rwa [decide_eq_true_eq] at hbytes

/-- Some receive calls take the parts up to the last one that they return. -/
def Takes (unread returned rest : List Part) : Prop :=
  ∃ taken, unread = taken ++ rest ∧ visible taken = returned ∧
    ∀ p ∈ taken.getLast?, p.bytes ≠ []

theorem Takes.append {unread returned rest returned' rest' : List Part}
    (htakes : Takes unread returned rest) (htakes' : Takes rest returned' rest') :
    Takes unread (returned ++ returned') rest' := by
  obtain ⟨taken, rfl, rfl, hlast⟩ := htakes
  obtain ⟨taken', rfl, rfl, hlast'⟩ := htakes'
  refine ⟨taken ++ taken', (List.append_assoc _ _ _).symm, visible_append taken taken', ?_⟩
  intro p hp
  rw [List.getLast?_append] at hp
  rcases Option.or_eq_some_iff.mp hp with hp | ⟨-, hp⟩
  · exact hlast' p hp
  · exact hlast p hp

theorem takes_of_receive {unread rest : List Part} {p : Part}
    (hreceive : receive unread = some (p, rest)) : Takes unread [p] rest := by
  induction unread with
  | nil => cases hreceive
  | cons q unread ih =>
      rw [receive] at hreceive
      split_ifs at hreceive with hq
      · obtain ⟨rfl, rfl⟩ := Prod.mk.inj (Option.some.inj hreceive)
        have hne := List.length_pos_iff.mp hq
        refine ⟨[q], rfl, by simp [visible, hne], fun p hp => ?_⟩
        exact Option.some.inj hp ▸ hne
      · obtain ⟨taken, rfl, htaken, hlast⟩ := ih hreceive
        have hempty : q.bytes = [] := List.length_eq_zero_iff.mp (Nat.eq_zero_of_not_pos hq)
        refine ⟨q :: taken, rfl, by simpa [visible, hempty] using htaken, ?_⟩
        have hne : taken ≠ [] := by
          rintro rfl
          cases htaken
        rwa [List.getLast?_cons_of_ne_nil hne]

theorem takes_of_tryReceive {more throws : Bool} {unread rest : List Part} {frame : Option Part}
    (hread : tryReceive more throws unread = some (frame, rest)) :
    Takes unread frame.toList rest := by
  rw [tryReceive] at hread
  split_ifs at hread
  · obtain ⟨⟨p, unread'⟩, hreceive, heq⟩ := Option.map_eq_some_iff.mp hread
    obtain ⟨rfl, rfl⟩ := Prod.mk.inj heq
    exact takes_of_receive hreceive
  · obtain ⟨rfl, rfl⟩ := Prod.mk.inj (Option.some.inj hread)
    refine ⟨[], rfl, rfl, fun p hp => ?_⟩
    cases hp

theorem takes_of_turn {parsers : Parsers} {a : Action} {unread rest : List Part} {t : Turn}
    (hturn : turn parsers a unread = some (t, rest)) : Takes unread (parts t) rest := by
  obtain ⟨⟨frame1, unread1⟩, hread1, hturn⟩ := Option.bind_eq_some_iff.mp hturn
  have htakes1 := takes_of_tryReceive hread1
  dsimp only at hturn
  split_ifs at hturn with hdepth hadmin
  · obtain ⟨⟨frame2, unread2⟩, hread2, hturn⟩ := Option.bind_eq_some_iff.mp hturn
    obtain ⟨rfl, rfl⟩ := Prod.mk.inj (Option.some.inj hturn)
    simpa [parts, Turn.payload] using htakes1.append (takes_of_tryReceive hread2)
  · obtain ⟨⟨frame2, unread2⟩, hread2, hturn⟩ := Option.bind_eq_some_iff.mp hturn
    obtain ⟨⟨frame3, unread3⟩, hread3, hturn⟩ := Option.bind_eq_some_iff.mp hturn
    obtain ⟨rfl, rfl⟩ := Prod.mk.inj (Option.some.inj hturn)
    exact htakes1.append ((takes_of_tryReceive hread2).append (takes_of_tryReceive hread3))
  · obtain ⟨⟨frame2, unread2⟩, hread2, hturn⟩ := Option.bind_eq_some_iff.mp hturn
    obtain ⟨rfl, rfl⟩ := Prod.mk.inj (Option.some.inj hturn)
    simpa [parts, Turn.payload] using htakes1.append (takes_of_tryReceive hread2)

theorem frames_of_reads {a : Action} {unread rest : List Part} {t : Turn}
    (hreads : Reads a unread t rest) : frames a (visible unread) = (parts t).length := by
  obtain ⟨frame1, frame2, frame3, processed⟩ := t
  obtain ⟨hvisible, hfirst, hsecond, hthird, -, -⟩ := hreads
  dsimp only at hvisible hfirst hsecond hthird
  have hframe1 : (if a.firstThrows then none else (visible unread).head?) = frame1 := by
    rw [hvisible]
    cases frame1 <;> simp_all
  have hframe2 : (if moreAfter true frame1 && !a.secondThrows then
      ((visible unread).drop frame1.toList.length).head? else none) = frame2 := by
    rw [hvisible, Turn.payload, List.append_assoc, List.drop_left, ← hsecond]
    cases frame2 <;> simp
  rw [frames, hframe1, hframe2, ← hthird, parts, Turn.payload, List.length_append,
    List.length_append, Nat.add_assoc]
  cases frame3 <;> rfl

/-! ### The parts of an admin message -/

/-- The parts after the topic. -/
def otherParts (n : Nat) (verb : Text) (data : Option Text) : List Part :=
  ⟨verb, data.isSome, n, 1⟩ :: data.toList.map fun d => ⟨d, false, n, 2⟩

theorem messageParts_adminMessage (n : Nat) (verb : Text) (data : Option Text) :
    messageParts n (adminMessage agent verb data) =
      topicPart agent n :: otherParts n verb data := by
  cases data <;> rfl

theorem lt_message_of_mem {n k : Nat} {messages : List (List Text)} {p : Part}
    (hp : p ∈ inbound n messages) (hk : n + messages.length ≤ k) : p.message < k := by
  induction messages generalizing n with
  | nil => cases hp
  | cons message messages ih =>
      rw [List.length_cons] at hk
      rcases List.mem_append.mp hp with hp | hp
      · obtain ⟨x, -, rfl⟩ := List.mem_map.mp hp
        dsimp only
        omega
      · exact ih hp (by omega)

theorem le_message_of_mem_inbound {n : Nat} {messages : List (List Text)} {p : Part}
    (hp : p ∈ inbound n messages) : n ≤ p.message := by
  induction messages generalizing n with
  | nil => cases hp
  | cons message messages ih =>
      rcases List.mem_append.mp hp with hp | hp
      · obtain ⟨x, -, rfl⟩ := List.mem_map.mp hp
        exact Nat.le_refl n
      · exact (Nat.le_succ n).trans (ih hp)

theorem inbound_append (n : Nat) (messages messages' : List (List Text)) :
    inbound n (messages ++ messages') =
      inbound n messages ++ inbound (n + messages.length) messages' := by
  induction messages generalizing n with
  | nil => rfl
  | cons m messages ih =>
      rw [List.cons_append, inbound, inbound, ih, List.append_assoc, List.length_cons,
        Nat.add_assoc, Nat.add_comm 1]

variable {agent} {messages : List (List Text)} {n : Nat} {verb : Text} {data : Option Text}

theorem inbound_eq_of_message (hmessage : messages[n]? = some (adminMessage agent verb data)) :
    inbound 0 messages = inbound 0 (messages.take n) ++ topicPart agent n ::
      (otherParts n verb data ++ inbound (n + 1) (messages.drop (n + 1))) := by
  obtain ⟨hn, hmessage⟩ := List.getElem?_eq_some_iff.mp hmessage
  conv_lhs => rw [← List.take_append_drop n messages, List.drop_eq_getElem_cons hn]
  rw [inbound_append, inbound, hmessage, messageParts_adminMessage, List.length_take_of_le hn.le,
    Nat.zero_add]
  rfl

theorem topicPart_not_mem_otherParts : topicPart agent n ∉ otherParts n verb data := by
  intro hmem
  rcases List.mem_cons.mp hmem with heq | hmem
  · cases congrArg Part.position heq
  · obtain ⟨d, -, heq⟩ := List.mem_map.mp hmem
    cases congrArg Part.position heq

/-- What comes before the topic of a message is of earlier messages, and what comes after
it are its other parts and later messages. -/
theorem split_at_topic (hmessage : messages[n]? = some (adminMessage agent verb data))
    {before later : List Part}
    (hsplit : inbound 0 messages = before ++ topicPart agent n :: later) :
    (∀ p ∈ before, p.message < n) ∧
      ∃ after, later = otherParts n verb data ++ after ∧ ∀ p ∈ after, n < p.message := by
  obtain ⟨hn, -⟩ := List.getElem?_eq_some_iff.mp hmessage
  have hearlier : ∀ p ∈ inbound 0 (messages.take n), p.message < n := by
    intro p hp
    exact lt_message_of_mem hp (by rw [List.length_take_of_le hn.le, Nat.zero_add])
  have hlater : ∀ p ∈ inbound (n + 1) (messages.drop (n + 1)), n < p.message :=
    fun p hp => le_message_of_mem_inbound hp
  have hnot : topicPart agent n ∉
      otherParts n verb data ++ inbound (n + 1) (messages.drop (n + 1)) := by
    intro hmem
    rcases List.mem_append.mp hmem with hmem | hmem
    · exact topicPart_not_mem_otherParts hmem
    · exact Nat.lt_irrefl n (hlater _ hmem)
  -- The topic occurs once, so that there is one way to split the parts at it.
  rw [inbound_eq_of_message hmessage] at hsplit
  rcases List.append_eq_append_iff.mp hsplit with ⟨more, hbefore, hmore⟩ | ⟨more, hbefore, hmore⟩
  · cases more with
    | nil =>
        rw [List.append_nil] at hbefore
        obtain rfl := (List.cons.inj hmore).2
        exact ⟨fun p hp => hearlier p (hbefore ▸ hp), _, rfl, hlater⟩
    | cons p more =>
        obtain ⟨-, hrest⟩ := List.cons.inj hmore
        refine absurd ?_ hnot
        rw [hrest]
        exact List.mem_append_right more List.mem_cons_self
  · cases more with
    | nil =>
        rw [List.append_nil] at hbefore
        obtain rfl := (List.cons.inj hmore).2
        exact ⟨fun p hp => hearlier p (hbefore ▸ hp), _, rfl, hlater⟩
    | cons p more =>
        obtain ⟨rfl, -⟩ := List.cons.inj hmore
        refine absurd (hearlier (topicPart agent n) ?_) (Nat.lt_irrefl n)
        rw [hbefore]
        exact List.mem_append_right before List.mem_cons_self

/-! ### A turn at the topic of an admin message -/

section

variable {a : Action} {unread rest after : List Part} {t : Turn}

theorem throws_iff_bytesOf {frame : Option Part} {throws : Bool}
    (hsome : frame.isSome = !throws) (hne : ∀ p ∈ frame, p.bytes ≠ []) :
    throws = true ↔ bytesOf frame = [] := by
  cases frame with
  | none => exact iff_of_true (by simpa using hsome.symm) rfl
  | some p =>
      have hthrows : throws = false := by simpa using hsome.symm
      rw [hthrows]
      exact iff_of_false Bool.false_ne_true (hne p rfl)

/-- A call that throws exactly if the next part is empty gets this part, if any. -/
theorem next_part {p : Part} {frame : Option Part} {throws : Bool} {left : List Part}
    (hsome : frame.isSome = !throws) (hqueue : visible [p] ++ after = frame.toList ++ left)
    (hthrows : throws = true ↔ p.bytes = []) :
    frame = (if p.bytes = [] then none else some p) ∧ left = after := by
  by_cases hp : p.bytes = []
  · have hframe : frame = none := by
      rw [hthrows.mpr hp] at hsome
      exact Option.isNone_iff_eq_none.mp (Option.isSome_eq_false_iff.mp hsome)
    rw [hframe] at hqueue ⊢
    exact ⟨(if_pos hp).symm, by simpa [visible, hp] using hqueue.symm⟩
  · have hvisible : visible [p] = [p] := by simp [visible, hp]
    rw [eq_false_of_ne_true fun h => hp (hthrows.mp h)] at hsome
    obtain ⟨q, rfl⟩ := Option.isSome_iff_exists.mp hsome
    rw [hvisible] at hqueue
    obtain ⟨rfl, hleft⟩ := List.cons.inj hqueue
    exact ⟨(if_neg hp).symm, hleft.symm⟩

variable (hreads : Reads a unread t rest)

include hreads

theorem ne_nil_of_mem_payload : ∀ p ∈ t.payload, p.bytes ≠ [] := by
  intro p hp
  have hmem : p ∈ visible unread := by
    rw [hreads.visible_eq]
    exact List.mem_append_left _ (List.mem_append_right _ hp)
  exact bytes_ne_nil_of_visible hmem

theorem ne_nil_of_frame2 : ∀ p ∈ t.frame2, p.bytes ≠ [] := fun p hp =>
  ne_nil_of_mem_payload hreads p (List.mem_append_left _ (Option.mem_toList.mpr hp))

theorem ne_nil_of_frame3 : ∀ p ∈ t.frame3, p.bytes ≠ [] := fun p hp =>
  ne_nil_of_mem_payload hreads p (List.mem_append_right _ (Option.mem_toList.mpr hp))

variable (hframe1 : t.frame1 = some (topicPart agent n))

include hframe1

theorem isSome_frame3 (hadmin : isAdmin agent.id = true) :
    t.frame3.isSome = (moreAfter true t.frame2 && !a.thirdThrows) := by
  have hthird := hreads.third
  rw [hframe1] at hthird
  exact hthird.trans (by
    change (isAdmin agent.id && _) = _
    rw [hadmin]
    rfl)

variable (hvisible : visible unread =
  topicPart agent n :: (visible (otherParts n verb data) ++ after))

include hvisible

theorem payload_append_eq :
    t.frame2.toList ++ (t.frame3.toList ++ visible rest) =
      visible [⟨verb, data.isSome, n, 1⟩] ++
        (visible (data.toList.map fun d => ⟨d, false, n, 2⟩) ++ after) := by
  have heq := hreads.visible_eq
  rw [hvisible, hframe1] at heq
  have hother : visible (otherParts n verb data) = visible [⟨verb, data.isSome, n, 1⟩] ++
      visible (data.toList.map fun d => ⟨d, false, n, 2⟩) := visible_append [_] _
  rw [← List.append_assoc (visible _), ← hother, ← List.append_assoc]
  exact (List.cons.inj heq).2.symm

variable (hadmin : isAdmin agent.id = true)

include hadmin

/-- A turn that takes the message as a whole gets its verb and its data, and leaves what
comes after it. -/
theorem bytesOf_of_takesWhole {before : List Part}
    (htakes : TakesWhole agent verb data a before) :
    bytesOf t.frame2 = verb ∧ bytesOf t.frame3 = data.getD [] ∧ visible rest = after := by
  have hsecond := hreads.second
  rw [hframe1] at hsecond
  obtain ⟨hframe2, hqueue⟩ := next_part hsecond
    (payload_append_eq hreads hframe1 hvisible).symm htakes.second
  have hthird := isSome_frame3 hreads hframe1 hadmin
  have hverb : bytesOf t.frame2 = verb := by
    rw [hframe2]
    split_ifs with hnil
    · exact hnil.symm
    · rfl
  refine ⟨hverb, ?_⟩
  cases data with
  | none =>
      have hnone : t.frame3.isSome = false := by
        rw [hthird, hframe2]
        split_ifs with hnil
        · rw [htakes.third_of_none rfl hnil]
          rfl
        · rfl
      have hframe3 := Option.isNone_iff_eq_none.mp (Option.isSome_eq_false_iff.mp hnone)
      rw [hframe3] at hqueue ⊢
      exact ⟨rfl, hqueue⟩
  | some d =>
      have hmore : moreAfter true t.frame2 = true := by
        rw [hframe2]
        split_ifs <;> rfl
      rw [hmore, Bool.true_and] at hthird
      obtain ⟨hframe3, hrest⟩ := next_part (p := ⟨d, false, n, 2⟩) hthird hqueue.symm
        (htakes.third d rfl)
      refine ⟨?_, hrest⟩
      rw [hframe3]
      split_ifs with hnil
      · exact hnil.symm
      · rfl

/-- A turn that gets the verb and the data takes the message as a whole. -/
theorem takesWhole_of_bytesOf {before : List Part} (hbefore : visible before = [])
    (hverb : bytesOf t.frame2 = verb) (hdata : bytesOf t.frame3 = data.getD []) :
    TakesWhole agent verb data a before := by
  have hfirst := hreads.first
  have hsecond := hreads.second
  have hthird := isSome_frame3 hreads hframe1 hadmin
  have hne2 := ne_nil_of_frame2 hreads
  have hne3 := ne_nil_of_frame3 hreads
  rw [hframe1] at hfirst hsecond
  have hsecond : a.secondThrows = true ↔ verb = [] := by
    rw [← hverb]
    exact throws_iff_bytesOf hsecond hne2
  refine ⟨hbefore, by simpa using hfirst.symm, hadmin, hsecond, ?_, ?_⟩
  · rintro d rfl
    have hmore : moreAfter true t.frame2 = true := by
      cases hframe2 : t.frame2 with
      | none => rfl
      | some q =>
          have hnot : verb ≠ [] := by
            rw [← hverb, hframe2]
            exact hne2 q hframe2
          have hqueue := payload_append_eq hreads hframe1 hvisible
          rw [hframe2] at hqueue
          simp only [visible, hnot, ne_eq, not_false_eq_true, decide_true, List.filter_cons_of_pos,
            List.filter_nil, Option.toList_some, List.singleton_append, List.cons.injEq] at hqueue
          rw [hqueue.1]
          rfl
    rw [hmore, Bool.true_and] at hthird
    have hbytes : bytesOf t.frame3 = d := hdata
    rw [← hbytes]
    exact throws_iff_bytesOf hthird hne3
  · rintro rfl hnil
    have hframe2 : t.frame2 = none := by
      cases hframe2 : t.frame2 with
      | none => rfl
      | some q =>
          rw [hframe2, hnil] at hverb
          exact absurd hverb (hne2 q hframe2)
    rw [hframe2] at hthird
    exact (throws_iff_bytesOf hthird hne3).mpr hdata

end

/-! ### Runs -/

variable (agent messages)

/-- What has been read and what has not make up the messages, and of a message that has
been served nothing is left. -/
structure Inv (s : State) (taken : List Part) : Prop where
  split : inbound 0 messages = taken ++ s.unread
  read : ∀ t ∈ s.turns, ∀ p ∈ parts t, p ∈ taken
  handled : Handled agent messages s
  left : ∀ n verb data, Addressed agent messages n verb data → topicPart agent n ∉ s.unread →
    ∀ p ∈ visible s.unread, p.message ≠ n

variable {agent messages} {parsers : Parsers} {s s' : State} {a : Action}

theorem step_turn (hstep : step parsers s a = some s') :
    ∃ t, turn parsers a s.unread = some (t, s'.unread) ∧ s'.turns = s.turns ++ [t] := by
  rw [step] at hstep
  split_ifs at hstep
  obtain ⟨⟨t, unread⟩, hturn, rfl⟩ := Option.map_eq_some_iff.mp hstep
  exact ⟨t, hturn, rfl⟩

theorem inv_start : Inv agent messages (start messages) [] where
  split := rfl
  read := List.forall_mem_nil _
  handled n verb data h := by
    left
    change topicPart agent n ∈ inbound 0 messages
    rw [inbound_eq_of_message h.message]
    exact List.mem_append_right _ List.mem_cons_self
  left n verb data h hnot := by
    refine absurd ?_ hnot
    change topicPart agent n ∈ inbound 0 messages
    rw [inbound_eq_of_message h.message]
    exact List.mem_append_right _ List.mem_cons_self

theorem Inv.split_at {taken before later : List Part} (hs : Inv agent messages s taken)
    (h : Addressed agent messages n verb data)
    (hunread : s.unread = before ++ topicPart agent n :: later) :
    (∀ p ∈ taken, p.message < n) ∧ (∀ p ∈ before, p.message < n) ∧
      ∃ after, later = otherParts n verb data ++ after ∧ ∀ p ∈ after, n < p.message := by
  have hsplit := hs.split
  rw [hunread, ← List.append_assoc] at hsplit
  obtain ⟨hearlier, hlater⟩ := split_at_topic h.message hsplit
  exact ⟨fun p hp => hearlier p (List.mem_append_left before hp),
    fun p hp => hearlier p (List.mem_append_right taken hp), hlater⟩

/-- With nothing to be read before it, the topic is the first part that can be returned. -/
theorem visible_at_topic {unread before after : List Part} (hadmin : isAdmin agent.id = true)
    (hbefore : visible before = [])
    (hunread : unread = before ++ topicPart agent n :: (otherParts n verb data ++ after)) :
    visible unread = topicPart agent n :: (visible (otherParts n verb data) ++ visible after) := by
  have hid : agent.id ≠ [] := by
    intro hnil
    rw [hnil] at hadmin
    cases hadmin
  have htopic : visible [topicPart agent n] = [topicPart agent n] := by
    simp [visible, topicPart, hid]
  rw [hunread, visible_append, hbefore, List.nil_append, ← List.singleton_append, visible_append,
    htopic, visible_append]
  rfl

/-- The topic is not to be read any more if and only if the turn has read more parts than
those before it. -/
theorem lt_length_iff_not_mem {unread returned rest before later : List Part} {p : Part}
    (htakes : Takes unread returned rest) (hunread : unread = before ++ p :: later)
    (hnot : p ∉ later) : (visible before).length < returned.length ↔ p ∉ rest := by
  obtain ⟨taken, htaken, rfl, hlast⟩ := htakes
  rw [hunread] at htaken
  rcases List.append_eq_append_iff.mp htaken with ⟨more, rfl, hmore⟩ | ⟨more, rfl, hmore⟩
  · cases more with
    | nil =>
        rw [List.append_nil, ← List.nil_append rest, ← hmore]
        exact iff_of_false (Nat.lt_irrefl _) fun h => h List.mem_cons_self
    | cons q more =>
        obtain ⟨rfl, hlater⟩ := List.cons.inj hmore
        refine iff_of_true ?_ fun hp => hnot (hlater ▸ List.mem_append_right more hp)
        have hne : visible (p :: more) ≠ [] := by
          have hmem := List.getLast_mem (List.cons_ne_nil p more)
          refine List.ne_nil_of_mem (List.mem_filter.mpr ⟨hmem, ?_⟩)
          rw [decide_eq_true_eq]
          apply hlast
          rw [List.getLast?_append_of_ne_nil _ (List.cons_ne_nil p more)]
          exact List.getLast?_eq_some_getLast _
        rw [visible_append, List.length_append]
        exact Nat.lt_add_of_pos_right (List.length_pos_iff.mpr hne)
  · refine iff_of_false ?_ fun h => h ?_
    · rw [visible_append, List.length_append]
      omega
    · rw [hmore]
      exact List.mem_append_right more List.mem_cons_self

section

variable {taken : List Part} {t : Turn} (hs : Inv agent messages s taken)
  (h : Addressed agent messages n verb data) (hreads : Reads a s.unread t s'.unread)
  (hturns : s'.turns = s.turns ++ [t])

include hs h hreads hturns

/-- What has been served stays served. -/
theorem served_of_not_mem (hnot : topicPart agent n ∉ s.unread) :
    Served agent n verb data s'.turns ∧ ∀ p ∈ visible s'.unread, p.message ≠ n := by
  have hleft := hs.left n verb data h hnot
  obtain ⟨⟨old, hold, hrouted⟩, hdata⟩ := (hs.handled n verb data h).resolve_left hnot
  rw [hreads.visible_eq] at hleft
  refine ⟨⟨⟨old, ?_, hrouted⟩, ?_⟩, fun p hp => hleft p (List.mem_append_right _ hp)⟩
  · rw [hturns]
    exact List.mem_append_left [t] hold
  · rw [hturns, List.forall_mem_append, List.forall_mem_singleton]
    exact ⟨hdata, fun _ p hp => hleft p (List.mem_append_left _ hp)⟩

theorem served_of_takesWhole {before later : List Part}
    (hunread : s.unread = before ++ topicPart agent n :: later)
    (htakes : TakesWhole agent verb data a before) :
    Served agent n verb data s'.turns ∧ ∀ p ∈ visible s'.unread, p.message ≠ n := by
  obtain ⟨htaken, -, after, rfl, hafter⟩ := hs.split_at h hunread
  have hvisible := visible_at_topic htakes.id htakes.before_eq hunread
  have hframe1 : t.frame1 = some (topicPart agent n) := by
    have hfirst := hreads.first
    have heq := hreads.visible_eq
    rw [htakes.first] at hfirst
    obtain ⟨p, hp⟩ := Option.isSome_iff_exists.mp hfirst
    rw [hvisible, hp] at heq
    rw [hp, (List.cons.inj heq).1]
  obtain ⟨hverb, hdata, hrest⟩ :=
    bytesOf_of_takesWhole hreads hframe1 hvisible htakes.id htakes
  have hroute : route agent t = .handler verb (data.getD []) := by
    refine (route_eq_handler_iff agent).mpr ⟨?_, h.registered, hverb, hdata⟩
    rw [hframe1]
    exact htakes.id
  refine ⟨⟨⟨t, ?_, hframe1, hroute⟩, ?_⟩, fun p hp => ?_⟩
  · rw [hturns]
    exact List.mem_append_right s.turns List.mem_cons_self
  · rw [hturns, List.forall_mem_append, List.forall_mem_singleton, hroute]
    refine ⟨fun old hold _ p hp => ?_, fun hdata => absurd hdata Bool.false_ne_true⟩
    exact (htaken p (hs.read old hold p hp)).ne
  · rw [hrest] at hp
    exact (hafter p (List.mem_of_mem_filter hp)).ne'

theorem takesWhole_of_served {before later : List Part}
    (hunread : s.unread = before ++ topicPart agent n :: later)
    (hserved : Served agent n verb data s'.turns) :
    TakesWhole agent verb data a before := by
  obtain ⟨htaken, hbefore, after, rfl, -⟩ := hs.split_at h hunread
  obtain ⟨t', ht', hframe1, hroute⟩ := hserved.routed
  rw [hturns] at ht'
  rcases List.mem_append.mp ht' with hold | hnew
  · have htopic : topicPart agent n ∈ parts t' := by
      rw [parts, hframe1]
      exact List.mem_cons_self
    exact absurd (htaken _ (hs.read t' hold _ htopic)) (Nat.lt_irrefl n)
  · obtain rfl := List.mem_singleton.mp hnew
    obtain ⟨hadmin, -, hverb, hdata⟩ := (route_eq_handler_iff agent).mp hroute
    rw [hframe1] at hadmin
    have heq := hreads.visible_eq
    rw [hframe1] at heq
    have hnil : visible before = [] := by
      cases hvisible : visible before with
      | nil => rfl
      | cons p rest =>
          rw [hunread, visible_append, hvisible] at heq
          have hp : p ∈ before := List.mem_of_mem_filter (hvisible ▸ List.mem_cons_self)
          have hlt := hbefore p hp
          rw [(List.cons.inj heq).1] at hlt
          exact absurd hlt (Nat.lt_irrefl n)
    exact takesWhole_of_bytesOf hreads hframe1 (visible_at_topic hadmin hnil hunread) hadmin hnil
      hverb hdata

end

theorem topicPart_not_mem_after {before later taken : List Part} (hs : Inv agent messages s taken)
    (h : Addressed agent messages n verb data)
    (hunread : s.unread = before ++ topicPart agent n :: later) : topicPart agent n ∉ later := by
  obtain ⟨-, -, after, rfl, hafter⟩ := hs.split_at h hunread
  intro hmem
  rcases List.mem_append.mp hmem with hmem | hmem
  · exact topicPart_not_mem_otherParts hmem
  · exact Nat.lt_irrefl n (hafter _ hmem)

theorem inv_of_step {taken : List Part} (hs : Inv agent messages s taken)
    (hstep : step parsers s a = some s') (horder : InOrder agent messages s a) :
    ∃ taken', Inv agent messages s' taken' := by
  obtain ⟨t, hturn, hturns⟩ := step_turn hstep
  have hreads := reads_of_turn parsers hturn
  have htakes := takes_of_turn hturn
  obtain ⟨took, hunread, hparts, -⟩ := takes_of_turn hturn
  have hserved : ∀ n verb data, Addressed agent messages n verb data →
      topicPart agent n ∉ s'.unread →
      Served agent n verb data s'.turns ∧ ∀ p ∈ visible s'.unread, p.message ≠ n := by
    intro n verb data h hnot
    by_cases hmem : topicPart agent n ∈ s.unread
    · obtain ⟨before, later, hsplit⟩ := List.append_of_mem hmem
      have hreached := (lt_length_iff_not_mem htakes hsplit
        (topicPart_not_mem_after hs h hsplit)).mpr hnot
      rw [← frames_of_reads hreads] at hreached
      exact served_of_takesWhole hs h hreads hturns hsplit
        (horder n verb data before later h hsplit hreached)
    · exact served_of_not_mem hs h hreads hturns hmem
  refine ⟨taken ++ took, ?_, ?_, ?_, ?_⟩
  · rw [hs.split, hunread, List.append_assoc]
  · rw [hturns, List.forall_mem_append, List.forall_mem_singleton]
    refine ⟨fun old hold p hp => List.mem_append_left took (hs.read old hold p hp), ?_⟩
    intro p hp
    rw [← hparts] at hp
    exact List.mem_append_right taken (List.mem_of_mem_filter hp)
  · intro n verb data h
    refine or_iff_not_imp_left.mpr fun hnot => (hserved n verb data h hnot).1
  · intro n verb data h hnot
    exact (hserved n verb data h hnot).2

theorem not_handled_of_step {taken : List Part} (hs : Inv agent messages s taken)
    (hstep : step parsers s a = some s') (horder : ¬ InOrder agent messages s a) :
    ¬ Handled agent messages s' := by
  obtain ⟨t, hturn, hturns⟩ := step_turn hstep
  have hreads := reads_of_turn parsers hturn
  intro hhandled
  refine horder fun n verb data before later h hunread hreached => ?_
  rw [frames_of_reads hreads] at hreached
  have hnot := (lt_length_iff_not_mem (takes_of_turn hturn) hunread
    (topicPart_not_mem_after hs h hunread)).mp hreached
  exact takesWhole_of_served hs h hreads hturns hunread
    ((hhandled n verb data h).resolve_left hnot)

variable (agent messages parsers)

/-- For all messages and all failures of receive calls: every admin message with a
registered verb is handed to its handler with its data, and is never taken for market data,
if and only if every turn that gets to such a message takes it as a whole. -/
theorem handled_iff_inOrder (actions : List Action) :
    Runs.Always (step parsers) (Handled agent messages) (start messages) actions ↔
      Runs.Throughout (step parsers) (InOrder agent messages) (start messages) actions := by
  have himplies : ∀ s, (∃ taken, Inv agent messages s taken) → Handled agent messages s := by
    rintro s ⟨taken, hs⟩
    exact hs.handled
  refine Runs.always_iff_throughout (step parsers) himplies ?_ ?_ ⟨[], inv_start⟩ actions
  · rintro s a s' ⟨taken, hs⟩ hstep horder
    exact inv_of_step hs hstep horder
  · rintro s a s' ⟨taken, hs⟩ hstep horder
    exact not_handled_of_step hs hstep horder

/-- An agent with a handler for `stop`. -/
def stoppable (id : Text) : Agent Unit where
  id := id
  adminHandlers verb := if verb = "stop".toList then some fun _ _ s => (some false, s) else none

/-- The agent that the historian starts by default takes its admin messages, which
`isAdminMessage` knows, for market data. -/
theorem not_handled_historian :
    (stoppable "historian-hz".toList).isAdminMessage "historian-hz".toList "stop".toList [] = true ∧
      ¬ Runs.Always (step quoteParsers)
        (Handled (stoppable "historian-hz".toList) [["historian-hz".toList, "stop".toList]])
        (start [["historian-hz".toList, "stop".toList]]) [quiet true] := by
  refine ⟨by decide, fun halways => ?_⟩
  have hhandled := halways [quiet true] [] _ rfl rfl
  rcases hhandled 0 "stop".toList none ⟨rfl, rfl⟩ with hmem | ⟨⟨t, ht, -, hroute⟩, -⟩
  · cases hmem
  · obtain rfl := List.mem_singleton.mp ht
    contradiction

end Atp.AdminMessages
