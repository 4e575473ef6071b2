import Sucredb.Codec

/-!
# Fabric messages

`FabricMsg::get_type` sorts the messages between nodes into the reads and writes of
remote clients, the synchronisation of vnodes, and the DHT's own traffic. It reads the
variant alone, so the payloads are left out. `Unknown` reaches `unreachable!()`.
-/

namespace Sucredb

inductive FabricMsgType where
  | crud
  | synch
  | dht
  | unknown
  deriving DecidableEq, Repr

/-- The variants of `FabricMsg`, without their payloads. -/
inductive FabricMsg where
  | remoteGet
  | remoteGetAck
  | remoteSet
  | remoteSetAck
  | syncStart
  | syncSend
  | syncAck
  | syncFin
  | dhtae
  | dhtSync
  | unknown
  deriving DecidableEq, Repr

def FabricMsg.getType : FabricMsg → Except Panic FabricMsgType
  | .remoteGet | .remoteGetAck | .remoteSet | .remoteSetAck => .ok .crud
  | .syncStart | .syncSend | .syncAck | .syncFin => .ok .synch
  | .dhtSync | .dhtae => .ok .dht
  | _ => .error .unreachable

example : FabricMsg.unknown.getType = .error .unreachable := rfl

end Sucredb
