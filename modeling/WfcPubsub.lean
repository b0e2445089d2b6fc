import WfcPubsub.Rocksdb.Agreement
import WfcPubsub.Rocksdb.Removal
import WfcPubsub.Pubsub.ReadYourWrites
import WfcPubsub.PubsubMt.Sharding
import WfcPubsub.PubsubMt.Delivery
import WfcPubsub.Lib.StableOrder
import WfcPubsub.MessageQueue.Specification
import WfcPubsub.MessageQueue.ArrivalOrder
import WfcPubsub.MessageQueue.Retention
import WfcPubsub.MessageQueue.Rewriting
import WfcPubsub.Pubsub.Storing
import WfcPubsub.Pubsub.Lifetime
import WfcPubsub.Lib.Threads
import WfcPubsub.PubsubMt.GeneratedIds
import WfcPubsub.CometAdapter.Basic
import WfcPubsub.CometAdapter.Subscriptions
import WfcPubsub.MessageQueue.IdealQueue
import WfcPubsub.ChannelMap.Counting
import WfcPubsub.ChannelMap.Discarding
import WfcPubsub.Pubsub.LongLifetimes
import WfcPubsub.PubsubMt.Reading
import WfcPubsub.CometAdapter.Loading
import WfcPubsub.Broker.Basic
import WfcPubsub.Lib.Unwinding
import WfcPubsub.Broker.Channels
import WfcPubsub.Broker.Refinement
import WfcPubsub.Broker.Bounds
import WfcPubsub.Broker.Readings
import WfcPubsub.Broker.Restart
import WfcPubsub.Broker.Process
import WfcPubsub.Broker.Durability
import WfcPubsub.Broker.Consumer
import WfcPubsub.Broker.Identities
import WfcPubsub.Broker.Handlers
import WfcPubsub.CometAdapter.Hub
import WfcPubsub.CometAdapter.Privacy
import WfcPubsub.CometAdapter.Sessions
