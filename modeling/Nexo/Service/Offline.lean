import Nexo.Service.Outside

/-!
# Offline pushes

`service/message/offline.go`: the recipients of a message, minus the sender, minus those who muted
the conversation, kept to those whose visible range covers the message, minus those who are online,
are handed to the pusher. Any read may fail, and then nobody is pushed.

The two queries are reads of their own, and may see different states of the store.
-/

namespace Nexo.Message

/-- `offlinepush.Notification` -/
structure Notification where
  conversationId : String
  seq : Int
  sessionType : Int
  senderId : String
  groupId : String
  contentType : Int
  content : String
  sendTime : Int
  deriving DecidableEq

/-- `notification` -/
def notification (ev : PushEvent) : Notification where
  conversationId := ev.conversationId
  seq := ev.message.seq
  sessionType := ev.sessionType
  senderId := ev.senderId
  groupId := ev.groupId
  contentType := ev.message.contentType
  content := ev.message.content
  sendTime := ev.message.sendTime

/-- What the reads of `offlinePush` answer: the roster, what the queries for the muted and the
visible owners see, and, where an `OnlineStore` is configured, the platforms of the users. -/
structure OfflineReads (ε : Type) where
  recipients : Except ε (List String)
  muted : Except ε Db
  visible : Except ε Db
  online : Option (Except ε (String → List ℕ))

variable {ε : Type} (reads : OfflineReads ε) (ev : PushEvent)

/-- The last part of `offlinePush`: the online check and the pusher. -/
def pushOffline (targets : List String) : Option (List String × Notification) :=
  let offline :=
    match reads.online with
    | none => some targets
    | some (.error _) => none
    | some (.ok online) => some (targets.filter fun id ↦ ¬ (online id).length > 0)
  offline.bind fun offline ↦ if offline.length = 0 then none else some (offline, notification ev)

/-- `offlinePush`: what the pusher is called with, if it is. -/
def offlinePush : Option (List String × Notification) :=
  match reads.recipients with
  | .error _ => none
  | .ok roster =>
    let targets := roster.filter fun id ↦ ¬ id = ev.senderId
    if targets.length = 0 then none
    else
      match reads.muted with
      | .error _ => none
      | .ok d =>
        let muted := d.mutedOwners ev.conversationId targets
        let targets := targets.filter fun id ↦ ¬ id ∈ muted
        if targets.length = 0 then none
        else
          match reads.visible with
          | .error _ => none
          | .ok d =>
            let targets := d.visibleOwners ev.conversationId targets ev.message.seq
            if targets.length = 0 then none else pushOffline reads ev targets

/-- The users that are pushed. -/
def offlineUsers : List String := ((offlinePush reads ev).map (·.1)).getD []

end Nexo.Message
