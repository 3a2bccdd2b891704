import Gofusion.Utils.Text

/-!
# The queues of a producer and a consumer

The queues in `async/asynq.go`, over the server and the client of `common/infra/asynq`.

A consumer and a producer share one configuration.  `newAsynqConsumer` gives a queue without a
name the default name, but looks the name up before, so a second queue without a name is not seen
as a duplicate.  The server leaves out the queues whose level is not positive.

The producer reads the configuration when it enqueues a task.  The task goes to the only queue of
the configuration, or else to the default one, also if that is not among the queues.
-/

namespace Gofusion.Async

/-! ## The consumer -/

structure QueueConf where
  name : Text
  level : Int
deriving DecidableEq, Repr

structure Conf where
  queues : List QueueConf
deriving DecidableEq, Repr

/-- The values a constructor panics with. -/
inductive AsyncError
  | duplicatedQueueName
deriving DecidableEq, Repr

def defaultQueue (app : Text) : Text := app ++ ":async".toList

/-- A `map[string]int`. -/
abbrev QueueMap := List (Text × Int)

def QueueMap.names (m : QueueMap) : List Text := m.map Prod.fst

/-- `m[name] = level`. -/
def QueueMap.put (m : QueueMap) (name : Text) (level : Int) : QueueMap :=
  if name ∈ m.names then m.map fun e => if e.1 = name then (name, level) else e
  else m ++ [(name, level)]

def QueueConf.finalName (app : Text) (q : QueueConf) : Text :=
  if isStrBlank q.name then defaultQueue app else q.name

def QueueConf.named (app : Text) (q : QueueConf) : QueueConf := { q with name := q.finalName app }

/-- The loop over `conf.Queues`: the map, and the queues as the loop leaves them. -/
def addQueues (app : Text) : QueueMap → List QueueConf →
    Except AsyncError (QueueMap × List QueueConf)
  | m, [] => .ok (m, [])
  | m, q :: qs =>
    if q.name ∈ m.names then .error .duplicatedQueueName
    else do
      let (m, qs) ← addQueues app (m.put (q.finalName app) q.level) qs
      return (m, q.named app :: qs)

/-- The queues in `newAsynqConsumer`: `asynqCfg.Queues` and the configuration behind it. -/
def newAsynqConsumer (app : Text) (conf : Conf) : Except AsyncError (QueueMap × Conf) :=
  if 0 < conf.queues.length then do
    let (m, queues) ← addQueues app [] conf.queues
    return (m, { conf with queues })
  else
    .ok ([(defaultQueue app, 3)], conf)

/-- `base.DefaultQueueName`. -/
def defaultQueueName : Text := "default".toList

/-- The queues that `NewServer` polls. -/
def newServer (queues : QueueMap) : QueueMap :=
  let queues := queues.filter fun e => !isStrBlank e.1 && 0 < e.2
  if queues.length = 0 then [(defaultQueueName, 1)] else queues

/-! ## The producer -/

/-- `produceOption`.  Times and durations are in nanoseconds, and `none` is the zero time.
The arguments of the task are left out. -/
structure ProduceOption where
  id : Text := []
  queue : Text := []
  maxRetry : Int := 0
  deadline : Option Int := none
  timeout : Int := 0
  delayDuration : Int := 0
  delayTime : Option Int := none
  retentionDuration : Int := 0
deriving DecidableEq, Repr

/-- `asynq.Option`, as far as this producer uses them. -/
inductive EnqueueOption
  | taskID (id : Text)
  | queue (name : Text)
  | maxRetry (n : Int)
  | deadline (t : Int)
  | timeout (d : Int)
  | processIn (d : Int)
  | processAt (t : Int)
  | retention (d : Int)
deriving DecidableEq, Repr

def queueOption (app : Text) (conf : Conf) (src : ProduceOption) : Text :=
  if !isStrBlank src.queue then src.queue
  else match conf.queues with
    | [q] => q.name
    | _ => defaultQueue app

/-- The options in `parseOption` behind the queue.  A delay is read from `timeout`. -/
def laterOptions (src : ProduceOption) : List EnqueueOption :=
  (if 0 < src.maxRetry then [.maxRetry src.maxRetry] else []) ++
  (src.deadline.map .deadline).toList ++
  (if 0 < src.timeout then [.timeout src.timeout] else []) ++
  (if 0 < src.delayDuration then [.processIn src.timeout] else []) ++
  (src.delayTime.map .processAt).toList ++
  (if 0 < src.retentionDuration then [.retention src.retentionDuration] else [])

def parseOption (app : Text) (conf : Conf) (src : ProduceOption) : List EnqueueOption :=
  (if !isStrBlank src.id then [.taskID src.id] else []) ++
    .queue (queueOption app conf src) :: laterOptions src

/-- `option` of the client. -/
structure Composed where
  retry : Int := 25
  queue : Text := defaultQueueName
  taskID : Text
  timeout : Int := 0
  deadline : Option Int := none
  processAt : Int
  retention : Int := 0
deriving DecidableEq, Repr

/-- The errors of `composeOptions`. -/
inductive ClientError
  | blankQueueName
  | blankTaskID
deriving DecidableEq, Repr

/-- One option in `composeOptions`, at the time `now`. -/
def composeOption (now : Int) (res : Composed) : EnqueueOption → Except ClientError Composed
  | .taskID id => if isStrBlank id then .error .blankTaskID else .ok { res with taskID := id }
  | .queue name =>
    if isStrBlank name then .error .blankQueueName else .ok { res with queue := name }
  | .maxRetry n => .ok { res with retry := n }
  | .deadline t => .ok { res with deadline := some t }
  | .timeout d => .ok { res with timeout := d }
  | .processIn d => .ok { res with processAt := now + d }
  | .processAt t => .ok { res with processAt := t }
  | .retention d => .ok { res with retention := d }

/-- `composeOptions`.  `uuid` is the fresh identifier of the task. -/
def composeOptions (uuid : Text) (now : Int) (opts : List EnqueueOption) :
    Except ClientError Composed :=
  opts.foldlM (composeOption now) { taskID := uuid, processAt := now }

/-! ## Both over one configuration -/

inductive Constructor
  | producer
  | consumer
deriving DecidableEq, Repr

/-- The configuration and the queues that the consumer polls, once it is built. -/
structure Instances where
  conf : Conf
  polled : Option QueueMap := none
deriving DecidableEq, Repr

/-- `newAsynqProducer` keeps the configuration and does not touch it. -/
def Instances.construct (app : Text) (s : Instances) : Constructor → Except AsyncError Instances
  | .producer => .ok s
  | .consumer => do
    let (queues, conf) ← newAsynqConsumer app s.conf
    return { conf, polled := some (newServer queues) }

/-- The constructors one after the other. -/
def Conf.build (app : Text) (conf : Conf) (order : List Constructor) :
    Except AsyncError Instances :=
  order.foldlM (Instances.construct app) { conf }

/-- A task with these options is put on a queue that the consumer polls. -/
def Instances.Served (app : Text) (s : Instances) (src : ProduceOption) : Prop :=
  ∀ uuid now, ∃ res queues, composeOptions uuid now (parseOption app s.conf src) = .ok res ∧
    s.polled = some queues ∧ res.queue ∈ queues.names

/-- The queues of a configuration that end up with different names. -/
def Conf.Distinct (app : Text) (conf : Conf) : Prop :=
  (conf.queues.map (QueueConf.finalName app)).Nodup

instance (app : Text) (conf : Conf) : Decidable (conf.Distinct app) :=
  inferInstanceAs (Decidable (List.Nodup _))

/-- In both orders, queues of one name are rejected, and a task without a queue option is put
on a queue that the consumer polls. -/
def Conf.Agrees (app : Text) (conf : Conf) : Prop :=
  ∀ order ∈ [[Constructor.producer, .consumer], [.consumer, .producer]],
    (¬conf.Distinct app → conf.build app order = .error .duplicatedQueueName) ∧
    ∀ s, conf.build app order = .ok s → ∀ src : ProduceOption, isStrBlank src.queue →
      s.Served app src

/-! ## The map of the queues -/

variable {qs : List QueueConf} {m : QueueMap} {src : ProduceOption} {q : QueueConf}

section

variable {app : Text}

theorem defaultQueue_not_blank (app : Text) : isStrBlank (defaultQueue app) = false := by
  simp only [isStrBlank, defaultQueue, List.all_append, Bool.and_eq_false_iff]
  exact .inr (by decide)

/-- The two default names end in different letters. -/
theorem defaultQueue_ne (app : Text) : defaultQueue app ≠ defaultQueueName := by
  intro h
  have hlast : (defaultQueue app).getLast? = some 'c' := by
    simp [defaultQueue, List.getLast?_append]
  rw [h] at hlast
  exact absurd hlast (by decide)

theorem finalName_not_blank (q : QueueConf) : isStrBlank (q.finalName app) = false := by
  unfold QueueConf.finalName
  split
  · exact defaultQueue_not_blank app
  · exact Bool.eq_false_iff.mpr ‹_›

theorem finalName_of_eq {q q' : QueueConf} (h : q'.name = q.finalName app) :
    q'.finalName app = q'.name := by
  have hblank : isStrBlank q'.name = false := by
    rw [h]
    exact finalName_not_blank q
  simp [QueueConf.finalName, hblank]

theorem QueueMap.names_put (m : QueueMap) (name : Text) (level : Int) :
    ∀ x, x ∈ (m.put name level).names ↔ x ∈ m.names ∨ x = name := by
  intro x
  unfold put
  split
  · next hmem =>
    have hnames : names (m.map fun e => if e.1 = name then (name, level) else e) =
        m.names := by
      simp only [names, List.map_map]
      refine List.map_congr_left fun e _ => ?_
      by_cases he : e.1 = name <;> simp [he]
    rw [hnames]
    exact ⟨.inl, fun h => h.elim id fun h => h ▸ hmem⟩
  · simp [names]

theorem QueueMap.put_of_not_mem (h : name ∉ m.names) :
    m.put name level = m ++ [(name, level)] := if_neg h

/-- No queue has the name of an earlier one.  Only this is checked by the loop. -/
def Unrepeated (app : Text) (qs : List QueueConf) : Prop :=
  qs.Pairwise fun q q' => q'.name ≠ q.finalName app

/-- The loop ends in an error exactly if a name is in the map or repeated. -/
theorem addQueues_error_iff :
    addQueues app m qs = .error .duplicatedQueueName ↔
      ¬((∀ q ∈ qs, q.name ∉ m.names) ∧ Unrepeated app qs) := by
  induction qs generalizing m with
  | nil => simp [addQueues, Unrepeated]
  | cons q qs ih =>
    by_cases hq : q.name ∈ m.names
    · simp [addQueues, hq]
    · have hstep : addQueues app m (q :: qs) = .error .duplicatedQueueName ↔
          addQueues app (m.put (q.finalName app) q.level) qs = .error .duplicatedQueueName := by
        simp only [addQueues, hq, if_false]
        cases addQueues app (m.put (q.finalName app) q.level) qs <;>
          simp [Bind.bind, Except.bind, pure, Except.pure]
      rw [hstep, ih]
      refine not_congr ?_
      simp only [Unrepeated, List.pairwise_cons, List.forall_mem_cons, QueueMap.names_put, not_or]
      constructor
      · rintro ⟨hnames, hpair⟩
        exact ⟨⟨hq, fun q' h => (hnames q' h).1⟩, fun q' h => (hnames q' h).2, hpair⟩
      · rintro ⟨⟨-, hnames⟩, hfirst, hpair⟩
        exact ⟨fun q' h => ⟨hnames q' h, hfirst q' h⟩, hpair⟩

/-- Queues that end up with different names are all in the map. -/
theorem addQueues_of_distinct (hnodup : (qs.map (QueueConf.finalName app)).Nodup)
    (hnames : ∀ q ∈ qs, q.name ∉ m.names ∧ q.finalName app ∉ m.names) :
    addQueues app m qs =
      .ok (m ++ qs.map fun q => (q.finalName app, q.level), qs.map (QueueConf.named app)) := by
  induction qs generalizing m with
  | nil => simp [addQueues]
  | cons q qs ih =>
    obtain ⟨hq, hfinal⟩ := hnames q List.mem_cons_self
    rw [List.map_cons, List.nodup_cons] at hnodup
    have hrest : ∀ q' ∈ qs, q'.name ∉ (m.put (q.finalName app) q.level).names ∧
        q'.finalName app ∉ (m.put (q.finalName app) q.level).names := by
      intro q' hmem
      have hne : q'.finalName app ≠ q.finalName app := fun h =>
        hnodup.1 (h ▸ List.mem_map_of_mem hmem)
      obtain ⟨h1, h2⟩ := hnames q' (List.mem_cons_of_mem _ hmem)
      simp only [QueueMap.names_put, not_or]
      exact ⟨⟨h1, fun h => hne (finalName_of_eq h ▸ h)⟩, h2, hne⟩
    have hrec := ih hnodup.2 hrest
    rw [QueueMap.put_of_not_mem hfinal] at hrec
    simp [addQueues, hq, QueueMap.put_of_not_mem hfinal, hrec, Bind.bind, Except.bind, pure,
      Except.pure]

end

/-! ## The queue of a task -/

/-- An option that `composeOptions` takes and that does not change the queue. -/
def EnqueueOption.KeepsQueue : EnqueueOption → Prop
  | .queue _ => False
  | .taskID id => isStrBlank id = false
  | _ => True

section

variable {app : Text}

/-- Such an option is accepted and leaves the queue. -/
theorem composeOption_keepsQueue {o : EnqueueOption} (h : o.KeepsQueue)
    (res : Composed) : ∃ res', composeOption now res o = .ok res' ∧ res'.queue = res.queue := by
  cases o with
  | queue name => exact h.elim
  | taskID id =>
    have hid : isStrBlank id = false := h
    exact ⟨{ res with taskID := id }, by simp [composeOption, hid], rfl⟩
  | _ => exact ⟨_, rfl, rfl⟩

/-- So are several of them. -/
theorem composeOptions_keepsQueue (now : Int) {opts : List EnqueueOption}
    (h : ∀ o ∈ opts, o.KeepsQueue) (res : Composed) :
    ∃ res', opts.foldlM (composeOption now) res = .ok res' ∧ res'.queue = res.queue := by
  induction opts generalizing res with
  | nil => exact ⟨res, rfl, rfl⟩
  | cons o opts ih =>
    obtain ⟨res₁, hstep, hqueue⟩ := composeOption_keepsQueue (h o List.mem_cons_self) res
    obtain ⟨res₂, hrest, hqueue'⟩ := ih (fun o ho => h o (List.mem_cons_of_mem _ ho)) res₁
    refine ⟨res₂, ?_, hqueue'.trans hqueue⟩
    rw [List.foldlM_cons, hstep]
    exact hrest

/-- What follows the queue option does not change the queue. -/
theorem laterOptions_keepsQueue (src : ProduceOption) :
    ∀ o ∈ laterOptions src, o.KeepsQueue := by
  intro o ho
  cases o with
  | queue name | taskID id => simp [laterOptions] at ho
  | _ => trivial

/-- The client takes the options, with the queue they name. -/
theorem composeOptions_parseOption
    (h : isStrBlank (queueOption app conf src) = false) (uuid : Text) (now : Int) :
    ∃ res, composeOptions uuid now (parseOption app conf src) = .ok res ∧
      res.queue = queueOption app conf src := by
  have hid : ∀ o ∈ (if !isStrBlank src.id then [EnqueueOption.taskID src.id] else []),
      o.KeepsQueue := by
    intro o ho
    split at ho
    · obtain rfl := List.mem_singleton.mp ho
      simpa [EnqueueOption.KeepsQueue] using ‹(!isStrBlank src.id) = true›
    · exact absurd ho List.not_mem_nil
  obtain ⟨res₁, hres₁, -⟩ := composeOptions_keepsQueue now hid
    { taskID := uuid, processAt := now }
  obtain ⟨res₂, hres₂, hqueue⟩ := composeOptions_keepsQueue now
    (laterOptions_keepsQueue src) { res₁ with queue := queueOption app conf src }
  refine ⟨res₂, ?_, hqueue⟩
  simp only [composeOptions, parseOption, List.foldlM_append, hres₁]
  simpa [composeOption, h, Bind.bind, Except.bind] using hres₂

end

/-! ## Agreement -/

/-- The queue of a task without a queue option has a positive level, for queues with
different names.  A server without queues polls the queue `default`. -/
def Conf.Covered (app : Text) (conf : Conf) : Prop :=
  match conf.queues with
  | [] => True
  | [q] => 0 < q.level ∨ q.name = defaultQueueName
  | _ => ∃ q ∈ conf.queues, q.finalName app = defaultQueue app ∧ 0 < q.level

section

variable {app : Text} {conf : Conf}

/-- Building a producer changes nothing, so the order does not matter. -/
theorem build_eq
    (h : order ∈ [[Constructor.producer, .consumer], [.consumer, .producer]]) :
    conf.build app order = Instances.construct app { conf } .consumer := by
  simp only [List.mem_cons, List.not_mem_nil, or_false] at h
  have hbuild : conf.build app order = Instances.construct app { conf } .consumer >>= pure := by
    obtain rfl | rfl := h <;> rfl
  rw [hbuild, bind_pure]

theorem newAsynqConsumer_cons :
    newAsynqConsumer app ⟨q :: qs⟩ =
      (addQueues app [] (q :: qs)).map fun r => (r.1, (⟨r.2⟩ : Conf)) := by
  rw [newAsynqConsumer, if_pos (show 0 < (⟨q :: qs⟩ : Conf).queues.length from Nat.succ_pos _)]
  cases addQueues app [] (q :: qs) <;> rfl

theorem construct_of_error (h : addQueues app [] (q :: qs) = .error e) :
    Instances.construct app { conf := ⟨q :: qs⟩ } .consumer = .error e := by
  rw [Instances.construct, newAsynqConsumer_cons, h]
  rfl

theorem construct_of_ok (h : addQueues app [] (q :: qs) = .ok (m, qs')) :
    Instances.construct app { conf := ⟨q :: qs⟩ } .consumer =
      .ok { conf := ⟨qs'⟩, polled := some (newServer m) } := by
  rw [Instances.construct, newAsynqConsumer_cons, h]
  rfl

/-- The consumer is refused exactly for a repeated name. -/
theorem construct_error_iff :
    Instances.construct app { conf } .consumer = .error .duplicatedQueueName ↔
      ¬Unrepeated app conf.queues := by
  obtain ⟨queues⟩ := conf
  cases queues with
  | nil => simp [Instances.construct, newAsynqConsumer, Unrepeated, Functor.map, Except.map]
  | cons q qs =>
    have hloop : addQueues app [] (q :: qs) = .error .duplicatedQueueName ↔
        ¬Unrepeated app (q :: qs) := by simp [addQueues_error_iff, QueueMap.names]
    rw [← hloop]
    cases h : addQueues app [] (q :: qs) with
    | error e => simp [construct_of_error h]
    | ok r => simp [construct_of_ok h]

def Conf.queueMap (app : Text) (conf : Conf) : QueueMap :=
  match conf.queues with
  | [] => [(defaultQueue app, 3)]
  | qs => qs.map fun q => (q.finalName app, q.level)

theorem construct_of_distinct (h : conf.Distinct app) :
    Instances.construct app { conf } .consumer =
      .ok { conf := ⟨conf.queues.map (QueueConf.named app)⟩
            polled := some (newServer (conf.queueMap app)) } := by
  obtain ⟨queues⟩ := conf
  cases queues with
  | nil => rfl
  | cons q qs =>
    have hnames : ∀ q' ∈ q :: qs, q'.name ∉ QueueMap.names [] ∧
        q'.finalName app ∉ QueueMap.names [] := by simp [QueueMap.names]
    exact construct_of_ok (addQueues_of_distinct h hnames)

/-- Which queues a server polls. -/
theorem mem_newServer_iff (hm : ∀ e ∈ m, isStrBlank e.1 = false) :
    name ∈ (newServer m).names ↔ (∃ level, 0 < level ∧ (name, level) ∈ m) ∨
      ((∀ e ∈ m, e.2 ≤ 0) ∧ name = defaultQueueName) := by
  have hfilter : m.filter (fun e => !isStrBlank e.1 && decide (0 < e.2)) =
      m.filter fun e => decide (0 < e.2) :=
    List.filter_congr fun e he => by simp [hm e he]
  simp only [newServer, hfilter, List.length_eq_zero_iff]
  by_cases hnone : ∀ e ∈ m, e.2 ≤ 0
  · have hnil : m.filter (fun e => decide (0 < e.2)) = [] := by
      simpa [List.filter_eq_nil_iff] using hnone
    have hno : ¬∃ level, 0 < level ∧ (name, level) ∈ m := by
      rintro ⟨level, hpos, hmem⟩
      exact absurd (hnone _ hmem) (by simpa using hpos)
    simp only [hnil, if_true, hno, false_or, QueueMap.names, List.map_cons, List.map_nil,
      List.mem_singleton]
    exact ⟨fun h => ⟨hnone, h⟩, And.right⟩
  · have hsome : ¬m.filter (fun e => decide (0 < e.2)) = [] := by
      simpa [List.filter_eq_nil_iff] using hnone
    simp only [if_neg hsome, hnone, false_and, or_false, QueueMap.names, List.mem_map,
      List.mem_filter, decide_eq_true_eq]
    constructor
    · rintro ⟨e, ⟨hmem, hpos⟩, rfl⟩
      exact ⟨e.2, hpos, hmem⟩
    · rintro ⟨level, hpos, hmem⟩
      exact ⟨_, ⟨hmem, hpos⟩, rfl⟩

theorem queueMap_not_blank : ∀ e ∈ conf.queueMap app, isStrBlank e.1 = false := by
  intro e he
  obtain ⟨queues⟩ := conf
  cases queues with
  | nil =>
    obtain rfl := List.mem_singleton.mp he
    exact defaultQueue_not_blank app
  | cons q qs =>
    obtain ⟨q', -, rfl⟩ := List.mem_map.mp he
    exact finalName_not_blank q'

/-- The queue of a task without a queue option, in a configuration with the final names. -/
theorem queueOption_named (h : isStrBlank src.queue) :
    queueOption app ⟨conf.queues.map (QueueConf.named app)⟩ src =
      match conf.queues with
      | [q] => q.finalName app
      | _ => defaultQueue app := by
  obtain ⟨queues⟩ := conf
  match queues with
  | [] | [_] | _ :: _ :: _ => simp [queueOption, h, QueueConf.named]

/-- The queue of a task without options is polled exactly if it is covered. -/
theorem polled_iff_covered :
    (match conf.queues with
      | [q] => q.finalName app
      | _ => defaultQueue app) ∈ (newServer (conf.queueMap app)).names ↔ conf.Covered app := by
  rw [mem_newServer_iff queueMap_not_blank]
  obtain ⟨queues⟩ := conf
  match queues with
  | [] => simp [Conf.queueMap, Conf.Covered]
  | [q] =>
    have hname : q.finalName app = defaultQueueName ↔ q.name = defaultQueueName := by
      unfold QueueConf.finalName
      split
      · next hblank =>
        refine iff_of_false (defaultQueue_ne app) fun h => ?_
        rw [h] at hblank
        exact absurd hblank (by decide)
      · rfl
    simp [Conf.queueMap, Conf.Covered, hname]
    grind
  | q :: q' :: qs =>
    simp [Conf.queueMap, Conf.Covered, defaultQueue_ne]
    grind

/-- A task without a queue option is put on a polled queue exactly if its queue is covered. -/
theorem served_iff (h : isStrBlank src.queue) :
    Instances.Served app { conf := ⟨conf.queues.map (QueueConf.named app)⟩
                           polled := some (newServer (conf.queueMap app)) } src ↔
      conf.Covered app := by
  have hblank : isStrBlank (queueOption app ⟨conf.queues.map (QueueConf.named app)⟩ src) =
      false := by
    rw [queueOption_named h]
    split
    · exact finalName_not_blank _
    · exact defaultQueue_not_blank app
  rw [← polled_iff_covered, ← queueOption_named h]
  constructor
  · intro hserved
    obtain ⟨res, queues, hres, ⟨rfl⟩, hmem⟩ := hserved [] 0
    obtain ⟨res', hres', hqueue⟩ := composeOptions_parseOption hblank [] 0
    cases hres.symm.trans hres'
    exact hqueue ▸ hmem
  · intro hmem uuid now
    obtain ⟨res, hres, hqueue⟩ := composeOptions_parseOption hblank uuid now
    exact ⟨res, _, hres, rfl, hqueue ▸ hmem⟩

end

/-- A producer and a consumer agree on their queues exactly if

* one of the queues has the name that an earlier one ends up with, and both are rejected, or
* the queues end up with different names, and the queue for tasks without a queue option is
  one of them and has a positive level. -/
theorem queues_agree_iff (app : Text) (conf : Conf) :
    conf.Agrees app ↔ ¬Unrepeated app conf.queues ∨ (conf.Distinct app ∧ conf.Covered app) := by
  by_cases hrepeated : ¬Unrepeated app conf.queues
  · -- the consumer is not built
    refine iff_of_true (fun order horder => ?_) (.inl hrepeated)
    have herror := construct_error_iff.mpr hrepeated
    rw [build_eq horder, herror]
    exact ⟨fun _ => rfl, nofun⟩
  by_cases hdistinct : ¬conf.Distinct app
  · -- a second queue gets the default name
    refine iff_of_false (fun h => ?_) fun h => h.elim hrepeated fun h => hdistinct h.1
    have hbuild := (h [.producer, .consumer] (by simp)).1 hdistinct
    rw [build_eq (by simp)] at hbuild
    exact hrepeated (construct_error_iff.mp hbuild)
  rw [Classical.not_not] at hdistinct
  have hbuild := construct_of_distinct hdistinct
  constructor
  · intro h
    refine .inr ⟨hdistinct, ?_⟩
    have hserved := (h [.producer, .consumer] (by simp)).2 _ ((build_eq (by simp)).trans hbuild)
    exact (served_iff rfl).mp (hserved {} rfl)
  · rintro (h | ⟨-, hcovered⟩)
    · exact absurd h hrepeated
    · intro order horder
      rw [build_eq horder, hbuild]
      refine ⟨fun h => absurd hdistinct h, ?_⟩
      rintro s ⟨rfl⟩ src hsrc
      exact (served_iff hsrc).mpr hcovered

/-- With two queues a task without a queue option goes to a queue that nobody polls, and two
queues without a name are not rejected. -/
theorem twoQueues_not_agree :
    ¬Conf.Agrees "shop".toList ⟨[⟨"critical".toList, 6⟩, ⟨"low".toList, 1⟩]⟩ ∧
      ¬Conf.Agrees "shop".toList ⟨[⟨[], 6⟩, ⟨[], 1⟩]⟩ := by
  constructor
  · intro h
    have hserved := (h [.producer, .consumer] (by simp)).2 _ rfl {} rfl
    obtain ⟨res, queues, ⟨rfl⟩, ⟨rfl⟩, hmem⟩ := hserved [] 0
    revert hmem
    decide
  · intro h
    have hbuild := (h [.producer, .consumer] (by simp)).1 (by decide)
    exact nomatch hbuild

/-! ## The options of a task -/

/-- The options that a caller passes.  A time may be the zero time, `none`. -/
structure Passed where
  taskID : Option Text := none
  queue : Option Text := none
  maxRetry : Option Int := none
  deadline : Option (Option Int) := none
  timeout : Option Int := none
  delay : Option Int := none
  delayAt : Option (Option Int) := none
  retention : Option Int := none

def Passed.applyOptions (o : Passed) : ProduceOption where
  id := o.taskID.getD []
  queue := o.queue.getD []
  maxRetry := o.maxRetry.getD 0
  deadline := o.deadline.getD none
  timeout := o.timeout.getD 0
  delayDuration := o.delay.getD 0
  delayTime := o.delayAt.getD none
  retentionDuration := o.retention.getD 0

/-- The options of the client that the caller asks for.  There is none for the zero time. -/
def Passed.asked (o : Passed) : List (Option EnqueueOption) :=
  (o.taskID.map (some <| .taskID ·)).toList ++ (o.queue.map (some <| .queue ·)).toList ++
  (o.maxRetry.map (some <| .maxRetry ·)).toList ++ (o.deadline.map (·.map .deadline)).toList ++
  (o.timeout.map (some <| .timeout ·)).toList ++ (o.delay.map (some <| .processIn ·)).toList ++
  (o.delayAt.map (·.map .processAt)).toList ++ (o.retention.map (some <| .retention ·)).toList

/-- Every option that is passed is the only one of its kind, with its own value. -/
def Passed.Independent (app : Text) (conf : Conf) (o : Passed) : Prop :=
  ∀ x ∈ o.asked, ∃ e, x = some e ∧
    (parseOption app conf o.applyOptions).filter (·.ctorIdx = e.ctorIdx) = [e]

/-- The values that are not taken for an option that was not passed, a blank name that is the one of
the configuration, and a delay that is also the timeout. -/
def Passed.Taken (conf : Conf) (o : Passed) : Prop :=
  (∀ id, o.taskID = some id → isStrBlank id = false) ∧
  (∀ name, o.queue = some name → isStrBlank name = true → conf.queues.map (·.name) = [name]) ∧
  (∀ n, o.maxRetry = some n → 0 < n) ∧ o.deadline ≠ some none ∧
  (∀ d, o.timeout = some d → 0 < d) ∧ (∀ d, o.delay = some d → 0 < d ∧ o.timeout = some d) ∧
  o.delayAt ≠ some none ∧ ∀ d, o.retention = some d → 0 < d

theorem filter_ite_singleton {c : Prop} [Decidable c] (p : EnqueueOption → Bool)
    (o : EnqueueOption) :
    (if c then [o] else []).filter p = if c ∧ p o = true then [o] else [] := by
  by_cases hc : c <;> simp [hc, List.filter_cons]

/-- The options of one kind in `parseOption`. -/
theorem filter_parseOption (app : Text) (conf : Conf) (src : ProduceOption) (e : EnqueueOption) :
    (parseOption app conf src).filter (·.ctorIdx = e.ctorIdx) =
      match e with
      | .taskID _ => if !isStrBlank src.id then [.taskID src.id] else []
      | .queue _ => [.queue (queueOption app conf src)]
      | .maxRetry _ => if 0 < src.maxRetry then [.maxRetry src.maxRetry] else []
      | .deadline _ => (src.deadline.map .deadline).toList
      | .timeout _ => if 0 < src.timeout then [.timeout src.timeout] else []
      | .processIn _ => if 0 < src.delayDuration then [.processIn src.timeout] else []
      | .processAt _ => (src.delayTime.map .processAt).toList
      | .retention _ => if 0 < src.retentionDuration then [.retention src.retentionDuration] else [] := by
  cases e <;> cases hl : src.deadline <;> cases ht : src.delayTime <;>
    simp [parseOption, laterOptions, filter_ite_singleton, EnqueueOption.ctorIdx, hl, ht]

/-- Every option is independent whose value is not blank, zero or negative, and not a delay.  The
delay is read from the timeout. -/
theorem options_independent_iff (app : Text) (conf : Conf) (o : Passed) :
    o.Independent app conf ↔ o.Taken conf := by
  simp only [Passed.Independent, Passed.asked, List.forall_mem_append, Option.mem_toList,
    Option.map_eq_some_iff, forall_exists_index, and_imp, Passed.Taken, filter_parseOption,
    and_assoc]
  refine and_congr ?_ (and_congr ?_ (and_congr ?_ (and_congr ?_ (and_congr ?_ (and_congr ?_
    (and_congr ?_ ?_))))))
  · cases h : o.taskID <;> simp [Passed.applyOptions, h]
  · cases h : o.queue with
    | none => simp
    | some name =>
      have hname : isStrBlank name = true → defaultQueue app ≠ name := by
        rintro hname rfl
        rw [defaultQueue_not_blank] at hname
        cases hname
      rcases hq : conf.queues with _ | ⟨q, _ | ⟨q', qs⟩⟩ <;>
        simp +contextual [Passed.applyOptions, queueOption, h, hq, hname]
  · cases h : o.maxRetry <;> simp [Passed.applyOptions, h]
  · rcases h : o.deadline with _ | _ | t <;> simp [Passed.applyOptions, h]
  · cases h : o.timeout <;> simp [Passed.applyOptions, h]
  · cases h : o.delay with
    | none => simp
    | some d =>
      by_cases hd : 0 < d
      · cases ht : o.timeout <;> simp [Passed.applyOptions, h, ht, hd]
        omega
      · simp [Passed.applyOptions, h, hd]
  · rcases h : o.delayAt with _ | _ | t <;> simp [Passed.applyOptions, h]
  · cases h : o.retention <;> simp [Passed.applyOptions, h]

theorem delay_not_independent :
    parseOption [] ⟨[]⟩ (Passed.applyOptions { timeout := some 30, delay := some 5 }) =
      [.queue (defaultQueue []), .timeout 30, .processIn 30] ∧
    ¬Passed.Independent [] ⟨[]⟩ { timeout := some 30, delay := some 5 } := by
  refine ⟨rfl, fun h => ?_⟩
  obtain ⟨e, ⟨⟩, he⟩ := h (some (.processIn 5)) (by decide)
  cases he

end Gofusion.Async
