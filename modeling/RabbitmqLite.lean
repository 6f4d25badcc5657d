import RabbitmqLite.App.Reboot
import RabbitmqLite.Broker.BindingSet
import RabbitmqLite.Broker.TopicMatching
import RabbitmqLite.Engine.AuditHistory
import RabbitmqLite.Engine.ConsumerPool
import RabbitmqLite.Engine.Crashes
import RabbitmqLite.Engine.Deliveries
import RabbitmqLite.Engine.FirstFailure
import RabbitmqLite.Engine.InOrder
import RabbitmqLite.Engine.LetterAgreement
import RabbitmqLite.Engine.Lifecycle.Progress
import RabbitmqLite.Engine.NackReport
import RabbitmqLite.Engine.Publishing
import RabbitmqLite.Engine.QueueLimit
import RabbitmqLite.Engine.QueueManagement
import RabbitmqLite.Engine.Reclaiming
import RabbitmqLite.Engine.SchemaBound
import RabbitmqLite.Engine.WakeUps
import RabbitmqLite.Engine.WriteFailure
import RabbitmqLite.Message.Identifier
import RabbitmqLite.Metrics.Exposition
import RabbitmqLite.Retry.Backoff
import RabbitmqLite.Schema.Violations
import RabbitmqLite.Storage.Memory.FirstDelivery
import RabbitmqLite.Storage.Memory.Lifecycle
import RabbitmqLite.Storage.Memory.Paging
import RabbitmqLite.Storage.Memory.Reference
import RabbitmqLite.Storage.Memory.Refusal
import RabbitmqLite.Storage.Sqlite.Appending
import RabbitmqLite.Storage.Sqlite.Comparisons
import RabbitmqLite.Storage.Sqlite.DeliveryOrder
import RabbitmqLite.Storage.Sqlite.Listings
import RabbitmqLite.Storage.Sqlite.Migrations
import RabbitmqLite.Worker.Counters
