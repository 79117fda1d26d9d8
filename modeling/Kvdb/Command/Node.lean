import Kvdb.Command.Table
import Kvdb.Data.Utf8

/-!
# Commands on the node

The commands that do not touch stored data: the report of the server, its
replication role, the channels of its clients and the skeleton of a cluster. They
work on a state of the node that all connections share.
-/

namespace Kvdb

open Data

section State

/-- The part of the configuration that `INFO` reports. -/
structure ServerConfig where
  configFile : String
  tenant : String
  maxclients : ℕ
  dbPath : String

inductive ReplicationRole where
  | master
  | replica (host : String) (port : ℕ)
deriving DecidableEq

inductive ClusterNodeRole where
  | master
  | replica
deriving DecidableEq

structure ClusterNode where
  id : String
  addr : String
  role : ClusterNodeRole

/-- The state of the node: its configuration, its replication state, the
subscribers of each channel, which clients are still connected, and the slots, by
number, and nodes of the cluster, with the checksum that assigns keys to slots. Maps are
lists in the order of their iteration. -/
structure Node where
  config : ServerConfig
  role : ReplicationRole := .master
  masterReplid : String := ""
  masterReplOffset : UInt64 := 0
  localOffset : UInt64 := 0
  subscribers : List (String × List ℕ) := []
  connected : ℕ → Bool := fun _ => true
  slots : List (UInt16 × String) := []
  nodes : List ClusterNode := []
  crc16 : Bytes → UInt16 := fun _ => 0

end State

namespace Node

section Replication

def info (node : Node) : RespValue :=
  let role := match node.role with
    | .master => "master"
    | .replica host port => "slave:" ++ host ++ ":" ++ toString port
  .bulkString (some (utf8 ("# Server\r\nkvdb_version:0.1.0\r\nconfig_file:" ++
    node.config.configFile ++ "\r\nnamespace:" ++ node.config.tenant ++
    "\r\n\r\n# Clients\r\nmaxclients:" ++ toString node.config.maxclients ++
    "\r\n\r\n# Persistence\r\ndb_path:" ++ node.config.dbPath ++
    "\r\n\r\n# Replication\r\nrole:" ++ role ++ "\r\nmaster_replid:" ++ node.masterReplid ++
    "\r\nmaster_repl_offset:" ++ toString node.masterReplOffset.toNat ++ "\r\n")))

/-- `str::parse::<u16>`. -/
def parseU16 (text : Bytes) : Option ℕ := do
  let n ← parseDigits (if text.head? = some 0x2B then text.tail else text)
  if n < 2 ^ 16 then some n else none

/-- `REPLICAOF host port`, or `REPLICAOF NO ONE` -/
def replicaof (node : Node) : List Bytes → Except KvdbError RespValue × Node
  | [host, port] =>
    if isKeyword host "NO" ∧ isKeyword port "ONE" then
      (.ok (.simpleString "OK"), { node with role := .master })
    else
      match parseU16 port with
      | none => (.error (.command "port must be a valid integer"), node)
      | some port =>
        (.ok (.simpleString "OK"), { node with role := .replica (fromUtf8Lossy host) port })
  | _ => (.error (.wrongArgCount "REPLICAOF"), node)

def roleReply (node : Node) : RespValue :=
  match node.role with
  | .master => .array [.bulkString (some (ascii "master")), .integer node.localOffset.toInt64]
  | .replica host port =>
    .array [.bulkString (some (ascii "slave")), .bulkString (some (utf8 host)),
      .integer (Int64.ofNat port), .bulkString (some (ascii "connected")),
      .integer node.masterReplOffset.toInt64]

end Replication

section Channels

variable (client : ℕ)

/-- The number of channels a client is subscribed to. -/
def subscriptionCount (node : Node) : ℕ :=
  (node.subscribers.filter fun entry => client ∈ entry.2).length

/-- Add a client to a channel. The answer says whether it was not there. -/
def subscribeTo (channel : String) : List (String × List ℕ) → Bool × List (String × List ℕ)
  | [] => (true, [(channel, [client])])
  | (name, clients) :: rest =>
    if name = channel then
      if client ∈ clients then (false, (name, clients) :: rest)
      else (true, (name, clients ++ [client]) :: rest)
    else
      let (added, rest) := subscribeTo channel rest
      (added, (name, clients) :: rest)

/-- Subscribe a client to channels, one after the other. -/
def subscribeAll : List String → List (String × List ℕ) → List String × List (String × List ℕ)
  | [], subscribers => ([], subscribers)
  | channel :: channels, subscribers =>
    let (added, subscribers) := subscribeTo client channel subscribers
    let (others, subscribers) := subscribeAll channels subscribers
    (if added then channel :: others else others, subscribers)

/-- Take a client off a channel, and the channel off the map when it was the last
one. The answer says whether it was there. -/
def unsubscribeFrom (channel : String) : List (String × List ℕ) → Bool × List (String × List ℕ)
  | [] => (false, [])
  | (name, clients) :: rest =>
    if name = channel then
      let kept := clients.filter (· ≠ client)
      (kept.length < clients.length, if kept = [] then rest else (name, kept) :: rest)
    else
      let (removed, rest) := unsubscribeFrom channel rest
      (removed, (name, clients) :: rest)

/-- Take a client off channels, one after the other. -/
def unsubscribeAll : List String → List (String × List ℕ) → List String × List (String × List ℕ)
  | [], subscribers => ([], subscribers)
  | channel :: channels, subscribers =>
    let (removed, subscribers) := unsubscribeFrom client channel subscribers
    let (others, subscribers) := unsubscribeAll channels subscribers
    (if removed then channel :: others else others, subscribers)

def confirmations (word : String) (channels : List String) (node : Node) : RespValue :=
  .array (channels.map fun channel => .array [.bulkString (some (ascii word)),
    .bulkString (some (utf8 channel)), .integer (Int64.ofNat (node.subscriptionCount client))])

/-- `SUBSCRIBE channel [channel ...]` -/
def subscribe (node : Node) : List Bytes → Except KvdbError RespValue × Node
  | [] => (.error (.wrongArgCount "SUBSCRIBE"), node)
  | args =>
    let (added, subscribers) := subscribeAll client (args.map fromUtf8Lossy) node.subscribers
    let node := { node with subscribers }
    (.ok (confirmations client "subscribe" added node), node)

/-- `UNSUBSCRIBE [channel ...]`, from all channels if there is none -/
def unsubscribe (node : Node) : List Bytes → Except KvdbError RespValue × Node
  | [] =>
    let removed := (node.subscribers.filter fun entry => client ∈ entry.2).map Prod.fst
    let subscribers :=
      (node.subscribers.map fun entry => (entry.1, entry.2.filter (· ≠ client))).filter
      fun entry => entry.2 ≠ []
    let node := { node with subscribers }
    (.ok (confirmations client "unsubscribe" removed node), node)
  | args =>
    let (removed, subscribers) := unsubscribeAll client (args.map fromUtf8Lossy) node.subscribers
    let node := { node with subscribers }
    (.ok (confirmations client "unsubscribe" removed node), node)

def dropGone (connected : ℕ → Bool) (channel : String) :
    List (String × List ℕ) → List (String × List ℕ)
  | [] => []
  | (name, clients) :: rest =>
    if name = channel then
      let kept := clients.filter connected
      if kept.length < clients.length ∧ kept = [] then rest else (name, kept) :: rest
    else (name, clients) :: dropGone connected channel rest

/-- `PUBLISH channel message` -/
def publish (node : Node) : List Bytes → Except KvdbError RespValue × Node
  | channel :: _ :: _ =>
    let channel := fromUtf8Lossy channel
    let clients := ((node.subscribers.find? (·.1 = channel)).map Prod.snd).getD []
    (.ok (.integer (Int64.ofNat (clients.filter node.connected).length)),
      { node with subscribers := dropGone node.connected channel node.subscribers })
  | _ => (.error (.wrongArgCount "PUBLISH"), node)

end Channels

section Cluster

/-- The part of a key that decides its slot: what stands between the first opening
brace and the next closing one, if that is not empty. -/
def hashTag (key : Bytes) : Bytes :=
  match key.findIdx? (· = 0x7B) with
  | none => key
  | some start =>
    match (key.drop start).findIdx? (· = 0x7D) with
    | none => key
    | some len => if 1 < len then (key.drop (start + 1)).take (len - 1) else key

def keySlot (node : Node) (key : Bytes) : UInt16 := node.crc16 (hashTag key) % 16384

/-- Join neighbouring slots of one node to ranges. -/
def joinSlots (start stop : UInt16) (current : String) :
    List (UInt16 × String) → List (UInt16 × UInt16 × String)
  | [] => [(start, stop, current)]
  | (slot, node) :: rest =>
    if slot = stop + 1 ∧ node = current then joinSlots start slot current rest
    else (start, stop, current) :: joinSlots slot slot node rest

/-- The ranges of slots. Without an assignment all of them are local. -/
def slotsRanges (node : Node) : List (UInt16 × UInt16 × String) :=
  match node.slots with
  | [] => [(0, 16383, "127.0.0.1:6379")]
  | (slot, name) :: rest => joinSlots slot slot name rest

def slotsRangeToResp (range : UInt16 × UInt16 × String) : RespValue :=
  let parts := range.2.2.splitOn ":"
  let host := parts.head?.getD "127.0.0.1"
  let port := ((parts.drop 1).head?.bind fun text => parseI64? (utf8 text)).getD 6379
  .array [.integer (Int64.ofNat range.1.toNat), .integer (Int64.ofNat range.2.1.toNat),
    .array [.bulkString (some (utf8 host)), .integer port,
      .bulkString (some (ascii "0000000000000000000000000000000000000000"))]]

def clusterNodes (node : Node) : RespValue :=
  if node.nodes = [] then
    .bulkString (some (ascii ("0000000000000000000000000000000000000000 127.0.0.1:6379 " ++
      "myself,master - 0 0 0 connected 0-16383\n")))
  else
    .bulkString (some (utf8 (String.join (node.nodes.map fun node =>
      node.id ++ " " ++ node.addr ++ " " ++
        (match node.role with | .master => "master" | .replica => "replica") ++
        " - 0 0 0 connected\n"))))

/-- `CLUSTER SLOTS | KEYSLOT key | NODES`. The error for another subcommand holds
its text. -/
def cluster (node : Node) : List Bytes → Except KvdbError RespValue
  | [] => .ok (.error "ERR wrong number of arguments for 'cluster' command")
  | sub :: args =>
    if isKeyword sub "SLOTS" then .ok (.array (node.slotsRanges.map slotsRangeToResp))
    else if isKeyword sub "KEYSLOT" then
      match args with
      | [key] => .ok (.integer (Int64.ofNat (node.keySlot key).toNat))
      | _ => .error (.wrongArgCount "CLUSTER KEYSLOT")
    else if isKeyword sub "NODES" then .ok node.clusterNodes
    else .ok (.error ("ERR unknown subcommand '" ++ fromUtf8Lossy (toAsciiUppercase sub) ++ "'"))

end Cluster

end Node

inductive NodeCommand where
  | info | replicaof | role | subscribe | unsubscribe | publish | cluster
deriving DecidableEq, Repr

namespace NodeCommand

def all : List NodeCommand := [info, replicaof, role, subscribe, unsubscribe, publish, cluster]

def name : NodeCommand → String
  | info => "INFO" | replicaof => "REPLICAOF" | role => "ROLE" | subscribe => "SUBSCRIBE"
  | unsubscribe => "UNSUBSCRIBE" | publish => "PUBLISH" | cluster => "CLUSTER"

/-- Find a command by its name, in any case. -/
def lookup (cmd : Bytes) : Option NodeCommand :=
  all.find? fun command => toAsciiUppercase cmd = ascii command.name

/-- The function of a command, for a client. -/
def run (client : ℕ) (args : List Bytes) (node : Node) :
    NodeCommand → Except KvdbError RespValue × Node
  | info => (.ok node.info, node)
  | replicaof => node.replicaof args
  | role => (.ok node.roleReply, node)
  | subscribe => node.subscribe client args
  | unsubscribe => node.unsubscribe client args
  | publish => node.publish args
  | cluster => (node.cluster args, node)

end NodeCommand

end Kvdb
